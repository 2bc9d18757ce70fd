import PioSyntax.Proofs.ForeignBlock.Spelling
import PioSyntax.Proofs.Pattern.LetterCase

namespace PioSyntax.ForeignBlock

open Text Pattern

variable {source t : Text} {before : Option Char} {marker : Span}

theorem lineRest?_capitals (t : Text) : lineRest? (t.map Char.toUpper) = lineRest? t := by
  simp only [lineRest?, blanks_capitals, ← List.map_drop]
  generalize t.drop (blanks t) = rest
  split
  · next he => rw [List.map_eq_nil_iff.mp he]
  · next he =>
      obtain ⟨u, rfl, -⟩ := (capitals_eq_cons rfl).mp he
      rfl
  · next he =>
      obtain ⟨u, rfl, hu⟩ := (capitals_eq_cons rfl).mp he
      obtain rfl := List.map_eq_nil_iff.mp hu
      rfl
  · next he =>
      obtain ⟨u, rfl, hu⟩ := (capitals_eq_cons rfl).mp he
      obtain ⟨v, rfl, -⟩ := (capitals_eq_cons rfl).mp hu
      rfl
  · next h₁ h₂ h₃ h₄ =>
      split
      · exact absurd rfl h₁
      · next u => exact absurd rfl (h₂ (u.map Char.toUpper))
      · exact absurd rfl h₃
      · next u => exact absurd rfl (h₄ (u.map Char.toUpper))
      · rfl

theorem languageName_capitals (t : Text) :
    languageName (t.map Char.toUpper) = (languageName t).map Char.toUpper := by
  cases t with
  | nil => rfl
  | cons c t =>
      rw [List.map_cons, languageName, isNameStart_toUpper, languageName]
      by_cases hc : isNameStart c = true
      · rw [if_pos hc, if_pos hc, takeWhile_capitals (congr_toUpper isLanguageChar rfl),
          List.map_cons]
      · rw [if_neg hc, if_neg hc, List.map_nil]

theorem opening?_capitals (before : Option Char) (t : Text) :
    opening? (before.map Char.toUpper) (t.map Char.toUpper) =
      (opening? before t).map fun o => ⟨o.language.map Char.toUpper, o.marker, o.size⟩ := by
  simp only [opening?, startsLine_capitals, blanks_capitals, ← List.map_drop]
  by_cases hl : startsLine before = true
  · rw [if_pos hl, if_pos hl]
    split
    · next rest he =>
        obtain ⟨u, hu, rfl⟩ := (capitals_eq_cons rfl).mp he
        rw [hu]
        simp only [blanks_capitals, ← List.map_drop, languageName_capitals, List.length_map]
        generalize u.drop (blanks u) = named
        generalize hlang : languageName named = language
        generalize hbraced : named.drop language.length = braced
        split
        · next hlang' hbrace =>
            obtain ⟨v, hv, rfl⟩ := (capitals_eq_cons rfl).mp hbrace
            obtain ⟨d, ds, rfl, -, -⟩ := List.map_eq_cons_iff.mp hlang'
            rw [hv]
            simp only [lineRest?_capitals]
            rw [Option.map_map]
            rfl
        · next h =>
            split
            · next hbrace =>
                have hmap := congrArg (List.map Char.toUpper) hbrace
                exact absurd hmap (h _ _ _ rfl)
            · rfl
    · next h =>
        split
        · next rest he =>
            have hmap := congrArg (List.map Char.toUpper) he
            exact absurd hmap (h _)
        · rfl
  · rw [if_neg hl, if_neg hl, Option.map_none]

theorem closing?_capitals (before : Option Char) (t : Text) :
    closing? (before.map Char.toUpper) (t.map Char.toUpper) = closing? before t := by
  simp only [closing?, startsLine_capitals, blanks_capitals, ← List.map_drop]
  by_cases hl : startsLine before = true
  · rw [if_pos hl, if_pos hl]
    split
    · next rest he =>
        obtain ⟨u, hu, hv⟩ := (capitals_eq_cons rfl).mp he
        obtain ⟨v, rfl, rfl⟩ := (capitals_eq_cons rfl).mp hv
        rw [hu]
        simp only [lineRest?_capitals]
    · next h =>
        split
        · next rest he =>
            have hmap := congrArg (List.map Char.toUpper) he
            exact absurd hmap (h _)
        · rfl
  · rw [if_neg hl, if_neg hl]

theorem inner_capitals (h : marker.start < marker.stop ∧ marker.stop ≤ t.length) :
    Spelling.capitals.inner t marker = marker := by
  rw [Spelling.inner, Spelling.length_capitals_take (by omega), Spelling.length_capitals_take h.2]

theorem keepsBlocks_capitals : Spelling.capitals.KeepsBlocks source (List.map Char.toUpper) := by
  refine ⟨fun before t _ => ?_, fun before t _ => ?_, fun c s t h hs ht => ?_⟩
  · rw [Spelling.before_capitals, Spelling.text_capitals, opening?_capitals]
    cases ho : opening? before t with
    | none => rfl
    | some o =>
        obtain ⟨hm, -, hsize⟩ := opening?_bounds ho
        rw [Option.map_some, Option.map_some, Spelling.opening, inner_capitals hm,
          Spelling.length_capitals_take hsize]
  · rw [Spelling.before_capitals, Spelling.text_capitals, closing?_capitals]
    cases hc : closing? before t with
    | none => rfl
    | some e =>
        obtain ⟨hm, -, hsize⟩ := closing?_bounds hc
        rw [Option.map_some, Spelling.closing, inner_capitals hm,
          Spelling.length_capitals_take hsize]
  · exact absurd h (Spelling.capitals_ne_append hs ht)

end PioSyntax.ForeignBlock

import PioSyntax.ForeignBlock
import PioSyntax.Proofs.Text.Runs

namespace PioSyntax.ForeignBlock

open Text Pattern

def IsLanguage (name : Text) : Prop :=
  ∃ c cs, name = c :: cs ∧ isNameStart c = true ∧ ∀ d ∈ cs, isLanguageChar d = true

/-- What may stand between the blanks at the end of a line and the line feed. -/
def IsReturn (text : Text) : Prop := text = [] ∨ text = ['\r']

inductive OpeningLine : (line language : Text) → (marker : Span) → Prop
  | mk {indent gap language space final cr : Text} (hi : IsBlanks indent) (hg : IsBlanks gap)
      (hl : IsLanguage language) (hs : IsBlanks space) (hf : IsBlanks final) (hr : IsReturn cr) :
      OpeningLine
        (indent ++ '%' :: (gap ++ (language ++ (space ++ '{' :: (final ++ cr))))) language
        ⟨indent.length, indent.length + 1 + gap.length + language.length + space.length + 1⟩

inductive ClosingLine : (line : Text) → (marker : Span) → Prop
  | mk {indent final cr : Text} (hi : IsBlanks indent) (hf : IsBlanks final) (hr : IsReturn cr) :
      ClosingLine (indent ++ '%' :: '}' :: (final ++ cr)) ⟨indent.length, indent.length + 2⟩

variable {text line rest language : Text} {marker : Span} {before : Option Char} {size : Nat}
variable {c : Char}

abbrev LineEnds (text : Text) : Prop := Stops (· != '\n') text

theorem lineEnds_iff : LineEnds rest ↔ rest = [] ∨ ∃ t, rest = '\n' :: t := by
  cases rest <;> simp [LineEnds]

def IsOrdinary (c : Char) : Prop :=
  isBlank c = false ∧ isLanguageChar c = false ∧ c ≠ '%' ∧ c ≠ '{' ∧ c ≠ '}' ∧ c ≠ '\r'

instance (c : Char) : Decidable (IsOrdinary c) := inferInstanceAs (Decidable (_ ∧ _))

theorem IsReturn.not_mem (h : IsReturn text) (hc : c ≠ '\r') : c ∉ text := by
  rcases h with rfl | rfl
  · simp
  · simpa using hc

theorem IsLanguage.not_mem (h : IsLanguage text) (hc : isLanguageChar c = false) : c ∉ text := by
  obtain ⟨d, ds, rfl, hd, hds⟩ := h
  apply not_mem_of_forall _ hc
  exact List.forall_mem_cons.mpr ⟨by simp [isLanguageChar, isWord_of_isNameStart hd], hds⟩

theorem OpeningLine.not_mem (h : OpeningLine line language marker) (hc : IsOrdinary c) :
    c ∉ line := by
  obtain ⟨hblank, hlanguage, hpercent, hopen, -, hreturn⟩ := hc
  cases h with
  | mk hi hg hl hs hf hr =>
      simp [not_mem_of_forall hi hblank, not_mem_of_forall hg hblank, hl.not_mem hlanguage,
        not_mem_of_forall hs hblank, not_mem_of_forall hf hblank, hr.not_mem hreturn, hpercent,
        hopen]

theorem ClosingLine.not_mem (h : ClosingLine line marker) (hc : IsOrdinary c) : c ∉ line := by
  obtain ⟨hblank, -, hpercent, -, hclose, hreturn⟩ := hc
  cases h with
  | mk hi hf hr =>
      simp [not_mem_of_forall hi hblank, not_mem_of_forall hf hblank, hr.not_mem hreturn, hpercent,
        hclose]

theorem OpeningLine.not_mem_newline (h : OpeningLine line language marker) : '\n' ∉ line :=
  h.not_mem (by decide)

theorem ClosingLine.not_mem_newline (h : ClosingLine line marker) : '\n' ∉ line :=
  h.not_mem (by decide)

theorem OpeningLine.bounds (h : OpeningLine line language marker) :
    marker.start < marker.stop ∧ marker.stop ≤ line.length := by
  cases h with
  | mk => simp only [List.length_append, List.length_cons]; omega

theorem ClosingLine.bounds (h : ClosingLine line marker) :
    marker.start < marker.stop ∧ marker.stop ≤ line.length := by
  cases h with
  | mk => simp only [List.length_append, List.length_cons]; omega

theorem stops_blank_return {cr : Text} (hr : IsReturn cr) (he : LineEnds rest) :
    Stops isBlank (cr ++ rest) := by
  rcases hr with rfl | rfl
  · rcases lineEnds_iff.mp he with rfl | ⟨t, rfl⟩ <;> simp [isBlank]
  · simp [isBlank]

theorem lineRest?_iff : lineRest? text = some size ↔
    ∃ final cr rest, text = final ++ (cr ++ rest) ∧ IsBlanks final ∧ IsReturn cr ∧
      LineEnds rest ∧ size = final.length + cr.length + min 1 rest.length := by
  constructor
  · intro h
    obtain ⟨final, tail, rfl, hf, ht⟩ := exists_run isBlank text
    simp only [lineRest?, blanks_run hf ht, List.drop_left] at h
    split at h
    · exact ⟨final, [], [], by simp_all [IsReturn, IsBlanks]⟩
    · next t => exact ⟨final, [], '\n' :: t, by simp_all [IsReturn, IsBlanks]⟩
    · exact ⟨final, ['\r'], [], by simp_all [IsReturn, IsBlanks]⟩
    · next t => exact ⟨final, ['\r'], '\n' :: t, by simp_all [IsReturn, IsBlanks]⟩
    · cases h
  · rintro ⟨final, cr, rest, rfl, hf, hr, he, rfl⟩
    rw [lineRest?, blanks_run hf (stops_blank_return hr he)]
    simp only [List.drop_left]
    rcases hr with rfl | rfl <;> rcases lineEnds_iff.mp he with rfl | ⟨t, rfl⟩ <;> simp

theorem languageName_run (hl : IsLanguage language) (hr : Stops isLanguageChar rest) :
    languageName (language ++ rest) = language := by
  obtain ⟨c, cs, rfl, hc, hcs⟩ := hl
  simp [languageName, hc, takeWhile_run hcs hr]

theorem exists_languageName (h : languageName text ≠ []) :
    ∃ rest, text = languageName text ++ rest ∧ IsLanguage (languageName text) ∧
      Stops isLanguageChar rest := by
  cases text with
  | nil => exact absurd rfl h
  | cons c text =>
      by_cases hc : isNameStart c = true
      · obtain ⟨cs, rest, rfl, hcs, hr⟩ := exists_run isLanguageChar text
        have hn := languageName_run ⟨c, cs, rfl, hc, hcs⟩ hr
        rw [List.cons_append] at hn
        rw [hn]
        exact ⟨rest, rfl, ⟨c, cs, rfl, hc, hcs⟩, hr⟩
      · simp [languageName, hc] at h

theorem IsLanguage.stops_blank (hl : IsLanguage language) : Stops isBlank (language ++ rest) := by
  obtain ⟨c, cs, rfl, hc, -⟩ := hl
  exact stops_cons.mpr (isBlank_of_isNameStart hc)

theorem stops_languageChar_brace {space : Text} (hs : IsBlanks space) :
    Stops isLanguageChar (space ++ '{' :: rest) := by
  cases space with
  | nil => exact stops_cons.mpr (by decide)
  | cons c space =>
      rcases isBlank_iff.mp (hs c (by simp)) with rfl | rfl
      · exact stops_cons.mpr (by decide)
      · exact stops_cons.mpr (by decide)

theorem opening?_complete (hb : startsLine before = true)
    (h : OpeningLine line language marker) (hr : LineEnds rest) :
    opening? before (line ++ rest) =
      some ⟨language, marker, line.length + min 1 rest.length⟩ := by
  cases h with
  | @mk indent gap _ space final cr hi hg hl hs hf hcr =>
      have hrest := lineRest?_iff.mpr ⟨final, cr, rest, rfl, hf, hcr, hr, rfl⟩
      have hlang : languageName (language ++ (space ++ '{' :: (final ++ (cr ++ rest)))) =
          language := languageName_run hl (stops_languageChar_brace hs)
      obtain ⟨c, cs, hc, -⟩ := id hl
      simp only [opening?, hb, ↓reduceIte, List.append_assoc, List.cons_append]
      rw [blanks_run hi (stops_cons.mpr (by decide)), List.drop_left]
      simp only [blanks_run hg hl.stops_blank, List.drop_left, hlang]
      rw [blanks_run hs (stops_cons.mpr (by decide)), List.drop_left]
      subst hc
      simp only [hrest, Option.map_some, Option.some.injEq, Opening.mk.injEq, true_and]
      simp only [List.length_append, List.length_cons]
      omega

theorem opening?_sound {o : Opening} (h : opening? before text = some o) :
    startsLine before = true ∧ ∃ line rest, text = line ++ rest ∧
      OpeningLine line o.language o.marker ∧ LineEnds rest ∧
      o.size = line.length + min 1 rest.length := by
  unfold opening? at h
  split at h
  case isFalse => cases h
  case isTrue hb =>
    refine ⟨hb, ?_⟩
    obtain ⟨indent, tail, rfl, hi, ht⟩ := exists_run isBlank text
    simp only [blanks_run hi ht, List.drop_left] at h
    split at h
    case h_2 => cases h
    case h_1 named =>
      obtain ⟨gap, named, rfl, hg, hn⟩ := exists_run isBlank named
      simp only [blanks_run hg hn, List.drop_left] at h
      split at h
      case h_2 => cases h
      case h_1 c cs final hlang hbrace =>
        obtain ⟨rest, hnamed, hl, hr⟩ := exists_languageName (hlang ▸ List.cons_ne_nil c cs)
        generalize languageName named = language at *
        subst hnamed
        obtain ⟨space, braced, rfl, hs, hbr⟩ := exists_run isBlank rest
        simp only [List.drop_left, blanks_run hs hbr] at h hbrace
        subst hbrace
        obtain ⟨n, hn, rfl⟩ := Option.map_eq_some_iff.mp h
        obtain ⟨final, cr, rest, rfl, hf, hcr, he, rfl⟩ := lineRest?_iff.mp hn
        exact ⟨_, rest, by simp, .mk hi hg hl hs hf hcr, he, by
          simp only [List.length_append, List.length_cons]; omega⟩

theorem closing?_complete (hb : startsLine before = true) (h : ClosingLine line marker)
    (hr : LineEnds rest) :
    closing? before (line ++ rest) = some ⟨marker, line.length + min 1 rest.length⟩ := by
  cases h with
  | @mk indent final cr hi hf hcr =>
      have hrest := lineRest?_iff.mpr ⟨final, cr, rest, rfl, hf, hcr, hr, rfl⟩
      simp only [closing?, hb, ↓reduceIte, List.append_assoc, List.cons_append]
      rw [blanks_run hi (stops_cons.mpr (by decide)), List.drop_left]
      simp only [hrest, Option.map_some, Option.some.injEq, Closing.mk.injEq, true_and]
      simp only [List.length_append, List.length_cons]
      omega

theorem closing?_sound {o : Closing} (h : closing? before text = some o) :
    startsLine before = true ∧ ∃ line rest, text = line ++ rest ∧
      ClosingLine line o.marker ∧ LineEnds rest ∧ o.size = line.length + min 1 rest.length := by
  unfold closing? at h
  split at h
  case isFalse => cases h
  case isTrue hb =>
    refine ⟨hb, ?_⟩
    obtain ⟨indent, tail, rfl, hi, ht⟩ := exists_run isBlank text
    simp only [blanks_run hi ht, List.drop_left] at h
    split at h
    case h_2 => cases h
    case h_1 final =>
      obtain ⟨n, hn, rfl⟩ := Option.map_eq_some_iff.mp h
      obtain ⟨final, cr, rest, rfl, hf, hcr, he, rfl⟩ := lineRest?_iff.mp hn
      exact ⟨_, rest, by simp, .mk hi hf hcr, he, by
        simp only [List.length_append, List.length_cons]; omega⟩

theorem openingLine_iff : OpeningLine line language marker ↔ '\n' ∉ line ∧
    (opening? none line).map (fun o => (o.language, o.marker)) = some (language, marker) := by
  constructor
  · intro h
    have ho : opening? none (line ++ []) = _ := opening?_complete rfl h stops_nil
    rw [List.append_nil] at ho
    exact ⟨h.not_mem_newline, by rw [ho]; rfl⟩
  · rintro ⟨hl, h⟩
    obtain ⟨o, ho, he⟩ := Option.map_eq_some_iff.mp h
    obtain ⟨-, line', rest, rfl, h, hr, -⟩ := opening?_sound ho
    cases he
    rcases lineEnds_iff.mp hr with rfl | ⟨t, rfl⟩
    · rwa [List.append_nil]
    · simp at hl

theorem closingLine_iff : ClosingLine line marker ↔
    '\n' ∉ line ∧ (closing? none line).map Closing.marker = some marker := by
  constructor
  · intro h
    have ho : closing? none (line ++ []) = _ := closing?_complete rfl h stops_nil
    rw [List.append_nil] at ho
    exact ⟨h.not_mem_newline, by rw [ho]; rfl⟩
  · rintro ⟨hl, h⟩
    obtain ⟨o, ho, rfl⟩ := Option.map_eq_some_iff.mp h
    obtain ⟨-, line', rest, rfl, h, hr, -⟩ := closing?_sound ho
    rcases lineEnds_iff.mp hr with rfl | ⟨t, rfl⟩
    · rwa [List.append_nil]
    · simp at hl

instance : Decidable (OpeningLine line language marker) := decidable_of_iff' _ openingLine_iff

instance : Decidable (ClosingLine line marker) := decidable_of_iff' _ closingLine_iff

end PioSyntax.ForeignBlock

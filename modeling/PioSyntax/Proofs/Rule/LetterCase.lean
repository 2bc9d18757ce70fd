import PioSyntax.Proofs.Pattern.LetterCase
import PioSyntax.Proofs.Rule.Label

namespace PioSyntax

open Text Pattern

variable {pre lead name rest text : Text} {before : Option Char} {start : Nat} {r : Rule}
variable {u : Token}

namespace Rule

theorem isBlanks_capitals : IsBlanks (lead.map Char.toUpper) ↔ IsBlanks lead := by
  simp only [IsBlanks, List.forall_mem_map, isBlank_toUpper]

theorem not_isPublic_capitals : ¬ IsPublic (lead.map Char.toUpper) := by
  rintro ⟨indent, gap, h, -⟩
  have hp : 'p' ∈ lead.map Char.toUpper := by
    rw [h]
    simp
  obtain ⟨c, -, hc⟩ := List.mem_map.mp hp
  rcases eq_or_eq_of_toUpper hc (e := 'p') rfl with rfl | rfl
  · exact absurd hc (by decide)
  · exact absurd hc (by decide)

theorem isName_capitals : IsName (name.map Char.toUpper) ↔ IsName name := by
  constructor
  · rintro ⟨c, cs, h, hc, hcs⟩
    obtain ⟨d, ds, rfl, rfl, rfl⟩ := List.map_eq_cons_iff.mp h
    rw [isNameStart_toUpper] at hc
    simp only [List.forall_mem_map, isWord_toUpper] at hcs
    exact ⟨d, ds, rfl, hc, hcs⟩
  · rintro ⟨c, cs, rfl, hc, hcs⟩
    refine ⟨c.toUpper, cs.map Char.toUpper, rfl, ?_, ?_⟩
    · rwa [isNameStart_toUpper]
    · simpa only [List.forall_mem_map, isWord_toUpper] using hcs

theorem stops_capitals : Stops (· == ':') (rest.map Char.toUpper) ↔ Stops (· == ':') rest := by
  cases rest with
  | nil => rfl
  | cons c rest => rw [List.map_cons, stops_cons, stops_cons, congr_toUpper (· == ':') rfl c]

theorem charBefore_capitals : charBefore (before.map Char.toUpper) (pre.map Char.toUpper) =
    (charBefore before pre).map Char.toUpper := by
  have h := Spelling.capitals.charBefore_text before pre
  rwa [Spelling.before_capitals, Spelling.before_capitals, Spelling.text_capitals] at h

/-- Labels after `public` are lost when all letters are capitals. -/
theorem mem_candidates_capitals (hp : r.pattern = .label) (hg : r.group = 1) :
    u ∈ r.candidates ⟨start, before.map Char.toUpper, text.map Char.toUpper⟩ ↔
      ∃ pre lead name rest, text = pre ++ (lead ++ (name ++ ':' :: rest)) ∧
        startsLine (charBefore before pre) = true ∧ IsBlanks lead ∧ IsName name ∧
        Stops (· == ':') rest ∧
        u = ⟨r.category, ⟨start + pre.length + lead.length,
          start + pre.length + (lead.length + name.length)⟩, name.map Char.toUpper⟩ := by
  rw [mem_candidates_label hp hg]
  constructor
  · rintro ⟨pre, lead, name, rest, htext, hl, hlead, hn, hr, rfl⟩
    obtain ⟨pre, afterPre, rfl, rfl, hpre⟩ := List.map_eq_append_iff.mp htext
    obtain ⟨lead, afterLead, rfl, rfl, hname⟩ := List.map_eq_append_iff.mp hpre
    obtain ⟨name, afterName, rfl, rfl, hcolon⟩ := List.map_eq_append_iff.mp hname
    obtain ⟨rest, rfl, rfl⟩ := (capitals_eq_cons rfl).mp hcolon
    rw [charBefore_capitals, startsLine_capitals] at hl
    refine ⟨pre, lead, name, rest, rfl, hl, ?_, isName_capitals.mp hn, stops_capitals.mp hr, by simp⟩
    rcases hlead with h | h
    · exact isBlanks_capitals.mp h
    · exact absurd h not_isPublic_capitals
  · rintro ⟨pre, lead, name, rest, rfl, hl, hlead, hn, hr, rfl⟩
    refine ⟨pre.map Char.toUpper, lead.map Char.toUpper, name.map Char.toUpper,
      rest.map Char.toUpper, ?_, ?_, .inl (isBlanks_capitals.mpr hlead), isName_capitals.mpr hn,
      stops_capitals.mpr hr, by simp⟩
    · simp only [List.map_append, List.map_cons]
      rfl
    · rwa [charBefore_capitals, startsLine_capitals]

end Rule

end PioSyntax

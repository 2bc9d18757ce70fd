import PioSyntax.Proofs.Pattern.Words
import PioSyntax.Proofs.Rule.Separator

namespace PioSyntax

open Text

namespace Rule

open Pattern

variable {r : Rule} {before : Option Char} {text : Text} {hit : Hit} {part : Span} {t : Token}
variable {s : Segment}

theorem groupOf_breaksAt (hr : r.pattern.recognise before text = some hit)
    (hg : r.groupOf hit = some part) :
    BreaksAt before text part.start ∧ BreaksAt before text part.stop := by
  obtain ⟨taken, rest, marked, rfl, rfl, ht⟩ := recognise_iff.mp hr
  unfold groupOf at hg
  split at hg
  · obtain rfl := Option.some.inj hg
    exact ⟨ht.breaksAt_start, ht.breaksAt_stop⟩
  · split at hg
    · dsimp only at hg
      subst hg
      exact ht.breaksAt_part
    · cases hg

theorem candidates_breaksAt (h : t ∈ r.candidates s) :
    BreaksAt s.before s.text (t.span.start - s.start) ∧
      BreaksAt s.before s.text (t.span.stop - s.start) := by
  obtain ⟨f, hf, ht⟩ := List.mem_filterMap.mp h
  obtain ⟨part, hg, -, rfl⟩ := token?_eq_some.mp ht
  obtain ⟨pre, htext, hstart, hr⟩ := mem_find hf
  have hsub (n : Nat) : f.start + n - s.start = pre.length + n := by omega
  simp only [Span.shift, hsub, htext, breaksAt_append_right]
  exact groupOf_breaksAt hr hg

/-- A rule for words proposes all whole words that its pattern accepts. -/
theorem mem_candidates_words (hp : r.pattern.TakesWords) (hg : r.group = 0) :
    t ∈ r.candidates s ↔ ∃ pre word rest, s.text = pre ++ (word ++ rest) ∧ word ≠ [] ∧
      (∀ c ∈ word, isWord c = true) ∧ (charBefore s.before pre).any isWord = false ∧
      Stops isWord rest ∧ r.pattern.Accepts (charBefore s.before pre) word ∧
      t = ⟨r.category, ⟨s.start + pre.length, s.start + pre.length + word.length⟩, word⟩ := by
  have hgroup (hit : Hit) : r.groupOf hit = some ⟨0, hit.size⟩ := if_pos hg
  simp only [candidates, List.mem_filterMap, token?_eq_some, hgroup, Option.some.injEq]
  constructor
  · rintro ⟨f, hf, part, rfl, -, rfl⟩
    obtain ⟨pre, htext, hstart, hr⟩ := mem_find hf
    obtain ⟨word, rest, part, hrest, hhit, ht⟩ := recognise_iff.mp hr
    obtain ⟨hne, hall, hbefore, hstops, haccepts, -⟩ := (takes_iff_accepts hp).mp ht
    rw [hrest] at htext
    refine ⟨pre, word, rest, htext, hne, hall, hbefore, hstops, haccepts, ?_⟩
    rw [hrest, hhit, hstart, Span.shift, Span.slice, between_append_left (Nat.le_refl _),
      between_full, Nat.add_zero]
  · rintro ⟨pre, word, rest, htext, hne, hall, hbefore, hstops, haccepts, rfl⟩
    have hr := recognise_complete ((takes_iff_accepts hp).mpr
      ⟨hne, hall, hbefore, hstops, haccepts, rfl⟩)
    have hsep : ∀ d, pre.getLast? = some d → r.pattern.Separates d := by
      intro d hd
      rw [charBefore, hd, Option.some_or, Option.any_some] at hbefore
      exact separates_of_takesWords hp hbefore
    have hcomment : r.pattern ≠ .comment := by
      intro he
      rw [he] at hp
      exact hp
    refine ⟨⟨s.start + pre.length, word ++ rest, ⟨word.length, none⟩⟩, ?_, _, rfl,
      List.length_pos_iff.mpr hne, ?_⟩
    · rw [find, htext]
      exact mem_findFrom_of_recognise s.start hsep hcomment hr
    · rw [Span.shift, Span.slice, between_append_left (Nat.le_refl _), between_full, Nat.add_zero]

end Rule

end PioSyntax

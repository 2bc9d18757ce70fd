import PioSyntax.Proofs.Pattern.Brackets
import PioSyntax.Proofs.Token.Around

namespace PioSyntax.Rule

open Text Pattern

variable {r : Rule} {before : Option Char} {start n : Nat} {s t inner post text : Text} {c d : Char}
variable {u : Token}

theorem token?_bracketed (hg : r.group = 1) (hne : inner ≠ []) :
    r.token? (bracketed n inner post) =
      some ⟨r.category, ⟨n + 1, n + 1 + inner.length⟩, inner⟩ := by
  refine token?_eq_some.mpr ⟨⟨1, inner.length + 1⟩, ?_, ?_, ?_⟩
  · simp [groupOf, hg, bracketed]
  · simpa using List.length_pos_iff.mpr hne
  · simp [Span.shift, Span.slice, bracketed, between, Nat.add_assoc, Nat.add_comm 1]

theorem mem_candidates_arrayIndex (hp : r.pattern = .arrayIndex) (hg : r.group = 1) :
    u ∈ r.candidates ⟨start, before, text⟩ ↔
      ∃ pre inner post, text = pre ++ '[' :: (inner ++ ']' :: post) ∧ inner ≠ [] ∧
        (∀ c ∈ inner, inBrackets c = true) ∧ ¬ IsOpen pre ∧
        u = ⟨r.category, ⟨start + pre.length + 1, start + pre.length + 1 + inner.length⟩,
          inner⟩ := by
  simp only [candidates, List.mem_filterMap, find, hp, mem_findFrom_arrayIndex]
  constructor
  · rintro ⟨f, ⟨pre, inner, post, rfl, hne, hi, hopen, rfl⟩, hu⟩
    rw [token?_bracketed hg hne] at hu
    exact ⟨pre, inner, post, rfl, hne, hi, hopen, (Option.some.inj hu).symm⟩
  · rintro ⟨pre, inner, post, rfl, hne, hi, hopen, rfl⟩
    exact ⟨_, ⟨pre, inner, post, rfl, hne, hi, hopen, rfl⟩, token?_bracketed hg hne⟩

theorem mem_candidates_arrayIndex_left (hp : r.pattern = .arrayIndex) (hg : r.group = 1)
    (hd : d ≠ ']') :
    u ∈ r.candidates ⟨start, before, s ++ d :: t⟩ ∧ u.span.stop ≤ start + s.length ↔
      u ∈ r.candidates ⟨start, before, s⟩ := by
  simp only [mem_candidates_arrayIndex hp hg]
  constructor
  · rintro ⟨⟨pre, inner, post, he, hne, hi, hopen, rfl⟩, hstop⟩
    rw [← List.cons_append, ← List.append_assoc] at he
    obtain ⟨w, rfl, -⟩ := exists_append_cons he hd (by
      simp only [List.length_append, List.length_cons] at hstop ⊢
      omega)
    exact ⟨pre, inner, w, by simp, hne, hi, hopen, rfl⟩
  · rintro ⟨pre, inner, post, rfl, hne, hi, hopen, rfl⟩
    refine ⟨⟨pre, inner, post ++ d :: t, by simp, hne, hi, hopen, rfl⟩, ?_⟩
    simp only [List.length_append, List.length_cons]
    omega

/-- What a rule proposes after a text that ends in a comment, with offsets from there. A bracket
that is open there takes an array index. -/
def candidatesAfter (r : Rule) (s t : Text) : List Token :=
  (r.candidates ⟨0, some '/', t⟩).filter fun u =>
    ¬ (r.pattern = .arrayIndex ∧ IsOpen s ∧ (t.take (u.span.start - 1)).all inBrackets = true)

/-- Array indexes after a place are those of the text after it, unless a bracket is open there. -/
theorem mem_candidates_arrayIndex_right (hp : r.pattern = .arrayIndex) (hg : r.group = 1)
    (hc : c ≠ '[') :
    u ∈ r.candidates ⟨start, before, s ++ c :: t⟩ ∧ start + s.length + 1 ≤ u.span.start ↔
      ∃ v ∈ r.candidatesAfter (s ++ [c]) t, v.shift (start + s.length + 1) = u := by
  simp only [candidatesAfter, List.mem_filter, mem_candidates_arrayIndex hp hg, hp, true_and,
    decide_eq_true_eq]
  constructor
  · rintro ⟨⟨pre, inner, post, he, hne, hi, hopen, rfl⟩, hstart⟩
    obtain ⟨w, rfl, rfl⟩ := exists_append_cons he.symm hc.symm (by
      simp only at hstart
      omega)
    rw [List.append_cons, isOpen_append_iff, not_or] at hopen
    refine ⟨_, ⟨⟨w, inner, post, rfl, hne, hi, hopen.1, rfl⟩, ?_⟩, ?_⟩
    · simpa using hopen.2
    · simp only [Token.shift, Span.shift, length_append_cons, Token.mk.injEq, Span.mk.injEq,
        true_and, and_true]
      omega
  · rintro ⟨v, ⟨⟨pre, inner, post, rfl, hne, hi, hopen, rfl⟩, hfree⟩, rfl⟩
    refine ⟨⟨s ++ c :: pre, inner, post, by simp, hne, hi, ?_, ?_⟩, ?_⟩
    · rw [List.append_cons, isOpen_append_iff, not_or]
      exact ⟨hopen, by simpa using hfree⟩
    · simp only [Token.shift, Span.shift, length_append_cons, Token.mk.injEq, Span.mk.injEq,
        true_and, and_true]
      omega
    · simp only [Token.shift, Span.shift]
      omega

theorem within_firstBrackets (hp : r.pattern = .arrayIndex) (hg : r.group = 1) (hs : s <+: t)
    (hu : u ∈ r.candidates ⟨0, before, s⟩)
    (h : (s.take (u.span.start - 1)).all inBrackets = true) :
    (t.dropWhile inBrackets).head? = some ']' ∧ u.Within (firstBrackets t) := by
  obtain ⟨pre, inner, post, rfl, hne, hi, hopen, rfl⟩ := (mem_candidates_arrayIndex hp hg).mp hu
  obtain ⟨rest, rfl⟩ := hs
  have hpre : ∀ c ∈ pre ++ '[' :: inner, inBrackets c = true := by
    simp only [Nat.zero_add, Nat.add_sub_cancel, List.take_left, List.all_eq_true] at h
    exact List.forall_mem_append.mpr ⟨h, List.forall_mem_cons.mpr ⟨rfl, hi⟩⟩
  have htext : pre ++ '[' :: (inner ++ ']' :: post) ++ rest =
      pre ++ '[' :: inner ++ ']' :: (post ++ rest) := by simp
  have hfirst : ((pre ++ '[' :: inner ++ ']' :: (post ++ rest)).takeWhile (· != '[')).length ≤
      pre.length := by
    rw [List.append_assoc, List.cons_append, takeWhile_append_cons (p := (· != '[')) rfl]
    exact (List.takeWhile_prefix _).length_le
  rw [htext]
  refine ⟨?_, ?_, ?_⟩
  · rw [List.dropWhile_append_of_pos hpre]
    rfl
  · simp only [firstBrackets]
    omega
  · simp only [firstBrackets]
    rw [takeWhile_run hpre (stops_cons.mpr rfl), List.length_append, List.length_cons]
    omega

theorem candidatesAfter_of_isOpen {a b : Text} (h : IsOpen a ↔ IsOpen b) :
    r.candidatesAfter a t = r.candidatesAfter b t := by
  simp only [candidatesAfter, h]

theorem candidatesAfter_of_ne (h : r.pattern ≠ .arrayIndex) :
    r.candidatesAfter s t = r.candidates ⟨0, some '/', t⟩ := by
  rw [candidatesAfter, List.filter_eq_self]
  simp [h]

theorem candidatesAfter_congr {a b : Text} (hg : r.pattern = .arrayIndex → r.group = 1)
    (hs : s <+: t) (h : Reaches a t ↔ Reaches b t) :
    r.candidatesAfter a s = r.candidatesAfter b s := by
  apply List.filter_congr
  intro u hu
  rw [decide_eq_decide, not_iff_not]
  constructor
  · rintro ⟨hp, ha, hall⟩
    have hclosed := (within_firstBrackets hp (hg hp) hs hu hall).1
    exact ⟨hp, (h.mp ⟨ha, hclosed⟩).1, hall⟩
  · rintro ⟨hp, hb, hall⟩
    have hclosed := (within_firstBrackets hp (hg hp) hs hu hall).1
    exact ⟨hp, (h.mpr ⟨hb, hclosed⟩).1, hall⟩

theorem candidatesAfter_agree {a b : Text} (hp : r.pattern = .arrayIndex) (hg : r.group = 1)
    (hs : s <+: t) : Token.AgreeOutside (firstBrackets t) (r.candidatesAfter a s)
      (r.candidatesAfter b s) := by
  have hfree {a : Text} {u : Token} (hu : ¬ u.Within (firstBrackets t)) :
      u ∈ r.candidatesAfter a s ↔ u ∈ r.candidates ⟨0, some '/', s⟩ := by
    rw [candidatesAfter, List.mem_filter, decide_eq_true_eq]
    refine ⟨fun h => h.1, fun h => ⟨h, fun hu' => hu ?_⟩⟩
    exact (within_firstBrackets hp hg hs h hu'.2.2).2
  exact fun u hu => (hfree hu).trans (hfree hu).symm

/-- Tokens without brackets and line breaks lie in the first brackets or apart from them. -/
theorem within_or_apart (hs : s <+: t) (hu : u ∈ r.candidates ⟨0, before, s⟩)
    (hd : ∀ d, d = '[' ∨ inBrackets d = false → d ∉ u.text) :
    u.Within (firstBrackets t) ∨ ¬ u.span.Overlaps (firstBrackets t) := by
  obtain ⟨-, -, -, hstop, htext⟩ := mem_candidates hu
  obtain ⟨rest, rfl⟩ := hs
  simp only [Nat.zero_add, Nat.sub_zero] at hstop htext
  -- what begins before such a character ends before it
  have hcovers {c : Char} {pre post : Text} (he : s ++ rest = pre ++ c :: post)
      (hc : c = '[' ∨ inBrackets c = false) (hstart : u.span.start ≤ pre.length) :
      u.span.stop ≤ pre.length := by
    by_cases hlt : pre.length < u.span.stop
    · apply absurd _ (hd c hc)
      rw [htext, ← between_append_left (t := rest) hstop, he]
      exact mem_between hstart hlt
    · exact Nat.le_of_not_lt hlt
  by_cases ho : u.span.Overlaps (firstBrackets (s ++ rest))
  · obtain ⟨i, ⟨hi, hi'⟩, hf, hf'⟩ := ho
    simp only [firstBrackets] at hf hf'
    have hlen : ((s ++ rest).takeWhile inBrackets).length ≤ (s ++ rest).length :=
      (List.takeWhile_prefix _).length_le
    refine .inl ⟨?_, ?_⟩
    · obtain ⟨c, post, he, hc⟩ : ∃ c post, s ++ rest =
          (s ++ rest).takeWhile (· != '[') ++ c :: post ∧ (c != '[') = false :=
        exists_stop (by omega)
      by_cases hle : u.span.start ≤ ((s ++ rest).takeWhile (· != '[')).length
      · have := hcovers he (.inl (by simpa using hc)) hle
        omega
      · exact Nat.lt_of_not_le hle
    · by_cases hlt : ((s ++ rest).takeWhile inBrackets).length < (s ++ rest).length
      · obtain ⟨c, post, he, hc⟩ := exists_stop hlt
        exact hcovers he (.inr hc) (by omega)
      · simp only [firstBrackets, List.length_append] at hlt ⊢
        omega
  · exact .inr ho

end PioSyntax.Rule

import PioSyntax.Proofs.ForeignBlock.Reads

namespace PioSyntax

open Text

def Segment.shift (n : Nat) (s : Segment) : Segment := { s with start := n + s.start }

theorem Segment.ofSource_append_right {s t : Text} {start stop : Nat} (h : 0 < start) :
    ofSource (s ++ t) (s.length + start) (s.length + stop) =
      (ofSource t start stop).shift s.length := by
  have hindex : s.length + start - 1 - s.length = start - 1 := by omega
  have hbefore : (s ++ t)[s.length + start - 1]? = t[start - 1]? := by
    rw [List.getElem?_append_right (by omega), hindex]
  rw [ofSource, ofSource, if_neg (by omega), if_neg (by omega), hbefore, between_append_right]
  rfl

theorem Pattern.find_shift {p : Pattern} {s : Segment} {n : Nat} :
    p.find (s.shift n) = (p.find s).map (Found.shift n) := findFrom_shift

theorem Rule.candidates_segment_shift {r : Rule} {s : Segment} {n : Nat} :
    r.candidates (s.shift n) = (r.candidates s).map (Token.shift n) := candidates_shift

namespace ForeignBlock

variable {start : Nat} {blocks : List ForeignBlock} {s t language : Text}
variable {head tail : Span}

theorem Placed.segmentsFrom_shift (h : Placed t.length start blocks) (hs : 0 < start) :
    segmentsFrom (s ++ t) (s.length + start) (blocks.map (shift s.length)) =
      (segmentsFrom t start blocks).map (Segment.shift s.length) := by
  induction h with
  | nil =>
      rw [List.map_nil, segmentsFrom, segmentsFrom, List.length_append,
        Segment.ofSource_append_right hs]
      rfl
  | @unclosed start language head body hstart hh hb hn he =>
      have ht : 0 < t.length := by omega
      simp only [List.map_cons, List.map_nil, shift, segmentsFrom, Option.map_none,
        Option.elim_none, List.length_append, Span.shift, Segment.ofSource_append_right hs,
        Segment.ofSource_append_right ht]
  | closed hstart hh hb hn ht hm he rest ih =>
      have hrest := ih (by omega)
      simp only [List.map_cons, segmentsFrom, shift, Option.map_some, Option.elim_some, Span.shift,
        Segment.ofSource_append_right hs] at hrest ⊢
      rw [hrest]

/-- The segments of a text around blocks that are all closed stay when the text goes on. -/
theorem Placed.exists_segmentsFrom_append (h : Placed s.length start blocks)
    (hs : start ≤ s.length) (ht : ∀ b ∈ blocks, b.terminated = true) :
    ∃ (first : List Segment) (resume : Nat), start ≤ resume ∧ resume ≤ s.length ∧
      (∀ segment ∈ first, segment.stop ≤ resume) ∧
      ∀ t blocks', segmentsFrom (s ++ t) start (blocks ++ blocks') =
        first ++ segmentsFrom (s ++ t) resume blocks' := by
  induction h with
  | nil => exact ⟨[], _, Nat.le_refl _, hs, by simp, fun _ _ => rfl⟩
  | unclosed => exact absurd (ht _ List.mem_cons_self) (by simp [terminated])
  | @closed start language head body tail blocks hstart hh hb hn htail hm he rest ih =>
      rw [List.forall_mem_cons] at ht
      have hhead : head.start ≤ s.length := by omega
      obtain ⟨first, resume, hle, hresume, hfirst, hsegments⟩ := ih he ht.2
      refine ⟨.ofSource s start head.start :: first, resume, by omega, hresume, ?_, ?_⟩
      · rw [List.forall_mem_cons, Segment.stop_ofSource hstart hhead]
        exact ⟨by omega, hfirst⟩
      · intro t blocks'
        rw [List.cons_append, segmentsFrom, Segment.ofSource_append hs hhead, Option.elim_some,
          hsegments, List.cons_append]

/-- The segment that reaches from one text over into another, and those after it. -/
theorem Placed.exists_segmentsFrom_across (h : Placed t.length start blocks) (hs : 0 < start) :
    ∃ (text : Text) (rest : List Segment), text <+: t ∧
      (∀ segment ∈ rest, start ≤ segment.start) ∧ ∀ (s : Text) (resume : Nat), resume ≤ s.length →
        segmentsFrom (s ++ t) resume (blocks.map (shift s.length)) =
          ⟨resume, if resume = 0 then none else s[resume - 1]?, s.drop resume ++ text⟩ ::
            rest.map (Segment.shift s.length) := by
  have hacross (s : Text) (resume stop : Nat) (hr : resume ≤ s.length) :
      Segment.ofSource (s ++ t) resume (s.length + stop) =
        ⟨resume, if resume = 0 then none else s[resume - 1]?, s.drop resume ++ t.take stop⟩ := by
    have hbefore : (Segment.ofSource (s ++ t) resume s.length).before =
        (Segment.ofSource s resume s.length).before := by
      rw [Segment.ofSource_append hr (Nat.le_refl _)]
    have htext : (s ++ t).between resume (s.length + stop) = s.drop resume ++ t.take stop := by
      have hrest : s.between resume s.length = s.drop resume := by
        rw [between, ← List.length_drop, List.take_length]
      rw [between_append hr, hrest]
      simp [between]
    simp only [Segment.ofSource] at hbefore ⊢
    rw [hbefore, htext]
  cases h with
  | nil =>
      refine ⟨t, [], List.prefix_refl _, by simp, fun s resume hr => ?_⟩
      rw [List.map_nil, segmentsFrom, List.length_append, hacross s resume _ hr, List.take_length]
      rfl
  | @unclosed _ language head body hstart hh hb hn he =>
      have ht : Placed t.length t.length [] := .nil
      refine ⟨t.take head.start, segmentsFrom t t.length [], List.take_prefix _ _, ?_,
        fun s resume hr => ?_⟩
      · intro segment hm
        have := ((ht.segments (Nat.le_refl _)).1 segment hm).1
        omega
      · rw [← ht.segmentsFrom_shift (by omega), ← hacross s resume _ hr, ← List.length_append]
        rfl
  | @closed _ language head body tail blocks hstart hh hb hn htail hm he rest =>
      refine ⟨t.take head.start, segmentsFrom t tail.stop blocks, List.take_prefix _ _, ?_,
        fun s resume hr => ?_⟩
      · intro segment hm
        have := ((rest.segments he).1 segment hm).1
        omega
      · rw [← rest.segmentsFrom_shift (by omega), ← hacross s resume _ hr]
        rfl

end ForeignBlock

end PioSyntax

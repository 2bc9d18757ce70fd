import PioSyntax.Proofs.Token.Shift

namespace PioSyntax.Token

variable {t u k : Token} {tokens kept kept' gap left right proposed : List Token} {m n : Nat}
variable {s : Span}

theorem claim_eq_self (ht : t.span.start < t.span.stop) (h : InOrder kept) (hk : k ∈ kept)
    (ho : t.span.Overlaps k.span) : t.claim kept = kept := by
  apply (h.claim ht).ext h
  intro u
  rw [mem_claim ht h]
  constructor
  · rintro (hu | ⟨-, hfree⟩)
    · exact hu
    · exact absurd ho (hfree k hk)
  · exact .inl

theorem claimAll_eq_self (h : InOrder kept) (hp : ∀ t ∈ proposed, t.span.start < t.span.stop ∧
    ∃ k ∈ kept, t.span.Overlaps k.span) : claimAll proposed kept = kept := by
  induction proposed with
  | nil => rfl
  | cons t proposed ih =>
      rw [List.forall_mem_cons] at hp
      obtain ⟨⟨ht, k, hk, ho⟩, hp⟩ := hp
      rw [claimAll_cons, claim_eq_self ht h hk ho, ih hp]

theorem After.mono (h : t.After m) (hnm : n ≤ m) : t.After n := ⟨Nat.le_trans hnm h.1, h.2⟩

theorem Before.mono (h : t.Before n) (hnm : n ≤ m) : t.Before m := ⟨h.1, Nat.le_trans h.2 hnm⟩

/-- Tokens in order are some that end before a place, some that begin after another one, and some
that reach between the two. -/
theorem InOrder.exists_split (h : InOrder tokens) (hnm : n ≤ m) : ∃ middle : List Token,
    (∀ t ∈ middle, t ∈ tokens ∧ n < t.span.stop ∧ t.span.start < m) ∧
      tokens = tokens.filter (·.span.stop ≤ n) ++
        (middle ++ tokens.filter (m ≤ ·.span.start)) := by
  induction tokens with
  | nil => exact ⟨[], by simp, rfl⟩
  | cons t tokens ih =>
      obtain ⟨ht, hrest, h⟩ := inOrder_cons.mp h
      obtain ⟨middle, hm, he⟩ := ih h
      by_cases hn : t.span.stop ≤ n
      · have hafter : ¬ m ≤ t.span.start := by omega
        refine ⟨middle, fun u hu => ⟨List.mem_cons_of_mem t (hm u hu).1, (hm u hu).2⟩, ?_⟩
        rw [List.filter_cons_of_pos (by simpa using hn),
          List.filter_cons_of_neg (by simpa using hafter), List.cons_append, ← he]
      · have hleft : tokens.filter (·.span.stop ≤ n) = [] := by
          rw [List.filter_eq_nil_iff]
          intro u hu
          have hstart := hrest u hu
          have hne := h.1 u hu
          simp only [decide_eq_true_eq]
          omega
        rw [hleft, List.nil_append] at he
        rw [List.filter_cons_of_neg (by simpa using hn), hleft]
        by_cases hmt : m ≤ t.span.start
        · have hmiddle : middle = [] := by
            rw [List.eq_nil_iff_forall_not_mem]
            intro u hu
            have hstart := hrest u (hm u hu).1
            have hbefore := (hm u hu).2.2
            omega
          refine ⟨[], by simp, ?_⟩
          rw [List.filter_cons_of_pos (by simpa using hmt), List.nil_append, List.nil_append]
          rw [hmiddle, List.nil_append] at he
          rw [← he]
        · refine ⟨t :: middle, ?_, ?_⟩
          · rw [List.forall_mem_cons]
            exact ⟨⟨List.mem_cons_self, by omega, by omega⟩,
              fun u hu => ⟨List.mem_cons_of_mem t (hm u hu).1, (hm u hu).2⟩⟩
          · rw [List.filter_cons_of_neg (by simpa using hmt), List.nil_append, List.cons_append,
              ← he]

theorem claimAll_beside (hl : ∀ t ∈ left, t.Before n) (hr : ∀ t ∈ right, t.After m)
    (hx : ∀ t ∈ kept, t.Before n) (hy : ∀ t ∈ tokens, t.After m) (hn : t.After n)
    (hm : t.Before m) : claimAll (left ++ t :: right) (kept ++ tokens) =
      claimAll left kept ++ ([t] ++ claimAll right tokens) := by
  have hnm : n ≤ m := by
    obtain ⟨hn, ht⟩ := hn
    obtain ⟨-, hm⟩ := hm
    omega
  have hx' : ∀ u ∈ claimAll left kept, u.Before n := fun u hu =>
    (mem_or_mem_of_mem_claimAll hu).elim (hx u) (hl u)
  have hbefore : ∀ u ∈ claimAll left kept ++ [t], u.Before m := fun u hu =>
    (List.mem_append.mp hu).elim (fun hu => (hx' u hu).mono hnm)
      fun hu => List.mem_singleton.mp hu ▸ hm
  have ht : t.claim ([] ++ tokens) = [t] ++ tokens := claim_append_left hm hy
  rw [List.nil_append] at ht
  rw [claimAll_append, claimAll_append_left hl fun u hu => (hy u hu).mono hnm, claimAll_cons,
    claim_append_right hn hx', ht, ← List.append_assoc, claimAll_append_right hr hbefore,
    List.append_assoc]

/-- Rules that find nothing new between two places decide what is before and what is after these
places each on its own. -/
theorem claimAll_around {α : Type} {rules : List α} {left middle right : α → List Token}
    (hnm : n ≤ m) (hl : ∀ r ∈ rules, ∀ t ∈ left r, t.Before n)
    (hm : ∀ r ∈ rules, ∀ t ∈ middle r,
      t.span.start < t.span.stop ∧ ∃ g ∈ gap, t.span.Overlaps g.span)
    (hr : ∀ r ∈ rules, ∀ t ∈ right r, t.After m) (hx : ∀ t ∈ kept, t.Before n)
    (hg : ∀ g ∈ gap, g.After n ∧ g.Before m) (hy : ∀ t ∈ tokens, t.After m)
    (h : InOrder (kept ++ (gap ++ tokens))) :
    claimAll (rules.flatMap fun r => left r ++ (middle r ++ right r)) (kept ++ (gap ++ tokens)) =
      claimAll (rules.flatMap left) kept ++ (gap ++ claimAll (rules.flatMap right) tokens) := by
  -- what is kept is always something on the left, the gap, and something on the right
  induction rules generalizing kept tokens with
  | nil => rfl
  | cons r rules ih =>
      rw [List.forall_mem_cons] at hl hm hr
      have hafter : ∀ t ∈ gap ++ tokens, t.After n := fun t ht =>
        (List.mem_append.mp ht).elim (fun ht => (hg t ht).1) fun ht => (hy t ht).mono hnm
      have hx' : ∀ t ∈ claimAll (left r) kept, t.Before n := fun t ht =>
        (mem_or_mem_of_mem_claimAll ht).elim (hx t) (hl.1 t)
      have hy' : ∀ t ∈ claimAll (right r) tokens, t.After m := fun t ht =>
        (mem_or_mem_of_mem_claimAll ht).elim (hy t) (hr.1 t)
      have hbefore : ∀ t ∈ claimAll (left r) kept ++ gap, t.Before m := fun t ht =>
        (List.mem_append.mp ht).elim (fun ht => (hx' t ht).mono hnm) fun ht => (hg t ht).2
      have hleft : claimAll (left r) (kept ++ (gap ++ tokens)) =
          claimAll (left r) kept ++ (gap ++ tokens) := claimAll_append_left hl.1 hafter
      have hmiddle : claimAll (middle r) (claimAll (left r) kept ++ (gap ++ tokens)) =
          claimAll (left r) kept ++ (gap ++ tokens) := by
        apply claimAll_eq_self
        · rw [← hleft]
          exact h.claimAll fun t ht => (hl.1 t ht).1
        · intro t ht
          obtain ⟨hne, g, hg, ho⟩ := hm.1 t ht
          exact ⟨hne, g, by simp [hg], ho⟩
      have hright : claimAll (right r) (claimAll (left r) kept ++ (gap ++ tokens)) =
          claimAll (left r) kept ++ (gap ++ claimAll (right r) tokens) := by
        rw [← List.append_assoc, claimAll_append_right hr.1 hbefore, List.append_assoc]
      have horder : InOrder (claimAll (left r) kept ++ (gap ++ claimAll (right r) tokens)) := by
        rw [← hright, ← hleft]
        exact (h.claimAll fun t ht => (hl.1 t ht).1).claimAll fun t ht => (hr.1 t ht).2
      simp only [List.flatMap_cons, claimAll_append, hleft, hmiddle, hright]
      exact ih hl.2 hm.2 hr.2 hx' hy' horder

def Within (s : Span) (t : Token) : Prop := s.start ≤ t.span.start ∧ t.span.stop ≤ s.stop

instance (s : Span) (t : Token) : Decidable (t.Within s) := inferInstanceAs (Decidable (_ ∧ _))

def AgreeOutside (s : Span) (kept kept' : List Token) : Prop :=
  ∀ t : Token, ¬ t.Within s → (t ∈ kept ↔ t ∈ kept')

theorem AgreeOutside.symm (h : AgreeOutside s kept kept') : AgreeOutside s kept' kept :=
  fun t ht => (h t ht).symm

theorem AgreeOutside.free (h : AgreeOutside s kept kept') (ht : ¬ t.span.Overlaps s)
    (hf : ∀ k ∈ kept, ¬ t.span.Overlaps k.span) : ∀ k ∈ kept', ¬ t.span.Overlaps k.span := by
  intro k hk ho
  by_cases hw : k.Within s
  · obtain ⟨i, hi, hki⟩ := ho
    exact ht ⟨i, hi, Nat.le_trans hw.1 hki.1, Nat.lt_of_lt_of_le hki.2 hw.2⟩
  · exact hf k ((h k hw).mpr hk) ho

theorem AgreeOutside.claimAll_left (h : AgreeOutside s left right) (hl : InOrder left)
    (hr : InOrder right) (hk : InOrder kept) :
    AgreeOutside s (claimAll left kept) (claimAll right kept) := by
  intro t ht
  rw [mem_claimAll hl hk, mem_claimAll hr hk, h t ht]

/-- Proposals that do not reach over the edges of a span carry no difference out of it. -/
theorem AgreeOutside.claimAll (h : AgreeOutside s kept kept') (hk : InOrder kept)
    (hk' : InOrder kept') (hp : ∀ t ∈ proposed, t.span.start < t.span.stop ∧
      (t.Within s ∨ ¬ t.span.Overlaps s)) :
    AgreeOutside s (claimAll proposed kept) (claimAll proposed kept') := by
  induction proposed generalizing kept kept' with
  | nil => exact h
  | cons t proposed ih =>
      rw [List.forall_mem_cons] at hp
      obtain ⟨⟨ht, hs⟩, hp⟩ := hp
      refine ih ?_ (hk.claim ht) (hk'.claim ht) hp
      intro u hu
      rw [mem_claim ht hk, mem_claim ht hk', h u hu]
      rcases hs with hs | hs
      · have hne : u ≠ t := by
          rintro rfl
          exact hu hs
        simp [hne]
      · have hfree : (∀ k ∈ kept, ¬ t.span.Overlaps k.span) ↔
            ∀ k ∈ kept', ¬ t.span.Overlaps k.span := ⟨h.free hs, h.symm.free hs⟩
        rw [hfree]

end PioSyntax.Token

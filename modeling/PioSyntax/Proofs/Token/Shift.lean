import PioSyntax.Proofs.Text.Between
import PioSyntax.Proofs.Token.Claim

namespace PioSyntax

open Text

def Token.shift (n : Nat) (t : Token) : Token := { t with span := t.span.shift n }

def ForeignBlock.shift (n : Nat) (b : ForeignBlock) : ForeignBlock :=
  ⟨b.language, b.head.shift n, b.body.shift n, b.tail.map (·.shift n)⟩

theorem Span.shift_shift (s : Span) (m n : Nat) : (s.shift m).shift n = s.shift (n + m) := by
  simp only [shift, Nat.add_assoc]

theorem ForeignBlock.shift_shift (b : ForeignBlock) (m n : Nat) :
    (b.shift m).shift n = b.shift (n + m) := by
  cases b with
  | mk language head body tail =>
      simp only [shift, Span.shift_shift, Option.map_map, Function.comp_def]

@[simp] theorem Span.isEmpty_shift {s : Span} {n : Nat} : (s.shift n).IsEmpty ↔ s.IsEmpty :=
  Nat.add_le_add_iff_left

theorem Span.slice_shift {s : Span} {t u : Text} : (s.shift t.length).slice (t ++ u) = s.slice u :=
  between_append_right

namespace Token

variable {t u : Token} {tokens kept proposed : List Token} {n : Nat}

theorem inOrder_shift : InOrder (tokens.map (shift n)) ↔ InOrder tokens := by
  simp only [InOrder, List.forall_mem_map, List.pairwise_map, shift, Span.shift,
    Nat.add_lt_add_iff_left, Nat.add_le_add_iff_left]

theorem claim_shift : (t.shift n).claim (kept.map (shift n)) = (t.claim kept).map (shift n) := by
  induction kept with
  | nil => rfl
  | cons k kept ih =>
      simp only [List.map_cons, claim, shift, Span.shift, Nat.add_le_add_iff_left]
      split
      · rfl
      · split
        · exact congrArg (k.shift n :: ·) ih
        · rfl

theorem claimAll_shift : claimAll (proposed.map (shift n)) (kept.map (shift n)) =
    (claimAll proposed kept).map (shift n) := by
  induction proposed generalizing kept with
  | nil => rfl
  | cons t proposed ih => rw [List.map_cons, claimAll_cons, claim_shift, ih, claimAll_cons]

def Before (n : Nat) (t : Token) : Prop := t.span.start < t.span.stop ∧ t.span.stop ≤ n

def After (n : Nat) (t : Token) : Prop := n ≤ t.span.start ∧ t.span.start < t.span.stop

theorem shift_after (h : ∀ t ∈ tokens, t.span.start < t.span.stop) :
    ∀ t ∈ tokens.map (shift n), t.After n := by
  rw [List.forall_mem_map]
  exact fun t ht => ⟨Nat.le_add_right _ _, Nat.add_lt_add_left (h t ht) n⟩

theorem claim_append_left (ht : t.Before n) (hy : ∀ u ∈ tokens, u.After n) :
    t.claim (kept ++ tokens) = t.claim kept ++ tokens := by
  induction kept with
  | nil =>
      cases tokens with
      | nil => rfl
      | cons u tokens =>
          have hu := (hy u (by simp)).1
          exact if_pos (Nat.le_trans ht.2 hu)
  | cons k kept ih =>
      simp only [List.cons_append, claim]
      split
      · rfl
      · split
        · exact congrArg (k :: ·) ih
        · rfl

theorem claim_append_right (ht : t.After n) (hx : ∀ k ∈ kept, k.Before n) :
    t.claim (kept ++ tokens) = kept ++ t.claim tokens := by
  induction kept with
  | nil => rfl
  | cons k kept ih =>
      rw [List.forall_mem_cons] at hx
      obtain ⟨⟨hk, hn⟩, hx⟩ := hx
      obtain ⟨hn', ht'⟩ := id ht
      rw [List.cons_append, claim, if_neg (by omega), if_pos (by omega), ih hx, List.cons_append]

theorem claimAll_append_left (hp : ∀ t ∈ proposed, t.Before n) (hy : ∀ u ∈ tokens, u.After n) :
    claimAll proposed (kept ++ tokens) = claimAll proposed kept ++ tokens := by
  induction proposed generalizing kept with
  | nil => rfl
  | cons t proposed ih =>
      rw [List.forall_mem_cons] at hp
      rw [claimAll_cons, claim_append_left hp.1 hy, ih hp.2, claimAll_cons]

theorem claimAll_append_right (hp : ∀ t ∈ proposed, t.After n) (hx : ∀ k ∈ kept, k.Before n) :
    claimAll proposed (kept ++ tokens) = kept ++ claimAll proposed tokens := by
  induction proposed generalizing tokens with
  | nil => rfl
  | cons t proposed ih =>
      rw [List.forall_mem_cons] at hp
      rw [claimAll_cons, claim_append_right hp.1 hx, ih hp.2, claimAll_cons]

/-- Proposals on both sides of a place do not meet, whatever their order. -/
theorem claimAll_flatMap_append {α : Type} {rules : List α} {left right : α → List Token}
    (hl : ∀ r ∈ rules, ∀ t ∈ left r, t.Before n) (hr : ∀ r ∈ rules, ∀ t ∈ right r, t.After n)
    (hx : ∀ t ∈ kept, t.Before n) (hy : ∀ t ∈ tokens, t.After n) :
    claimAll (rules.flatMap fun r => left r ++ right r) (kept ++ tokens) =
      claimAll (rules.flatMap left) kept ++ claimAll (rules.flatMap right) tokens := by
  induction rules generalizing kept tokens with
  | nil => rfl
  | cons r rules ih =>
      rw [List.forall_mem_cons] at hl hr
      have hx' : ∀ t ∈ claimAll (left r) kept, t.Before n := fun t ht =>
        (mem_or_mem_of_mem_claimAll ht).elim (hx t) (hl.1 t)
      have hy' : ∀ t ∈ claimAll (right r) tokens, t.After n := fun t ht =>
        (mem_or_mem_of_mem_claimAll ht).elim (hy t) (hr.1 t)
      simp only [List.flatMap_cons, claimAll_append]
      rw [claimAll_append_left hl.1 hy, claimAll_append_right hr.1 hx', ih hl.2 hr.2 hx' hy']

end Token

end PioSyntax

import Mathlib.Data.List.Nodup
import PioSyntax.Proofs.Token.Claim

namespace PioSyntax.Token

def Apart (left right : List Token) : Prop :=
  ∀ t ∈ left, ∀ u ∈ right, ¬ t.span.Overlaps u.span

variable {α : Type} {left right kept : List Token} {u : Token} {propose : α → List Token}
variable {a : α} {xs ys : List α}

theorem Apart.symm (h : Apart left right) : Apart right left := by
  intro t ht u hu ho
  obtain ⟨i, hi, hi'⟩ := ho
  exact h u hu t ht ⟨i, hi', hi⟩

theorem mem_claimAll_apart (hl : InOrder left) (hr : InOrder right) (hk : InOrder kept)
    (h : Apart left right) : u ∈ claimAll right (claimAll left kept) ↔
      u ∈ kept ∨ (u ∈ left ∨ u ∈ right) ∧ ∀ k ∈ kept, ¬ u.span.Overlaps k.span := by
  rw [mem_claimAll hr (hk.claimAll hl.1)]
  simp only [mem_claimAll hl hk]
  constructor
  · rintro ((hu | ⟨hu, hfree⟩) | ⟨hu, hfree⟩)
    · exact .inl hu
    · exact .inr ⟨.inl hu, hfree⟩
    · exact .inr ⟨.inr hu, fun k hm => hfree k (.inl hm)⟩
  · rintro (hu | ⟨hu | hu, hfree⟩)
    · exact .inl (.inl hu)
    · exact .inl (.inr ⟨hu, hfree⟩)
    · refine .inr ⟨hu, ?_⟩
      rintro k (hm | ⟨hm, -⟩)
      · exact hfree k hm
      · exact h.symm u hu k hm

/-- Proposals that are apart may be claimed in either order. -/
theorem claimAll_comm (hl : InOrder left) (hr : InOrder right) (hk : InOrder kept)
    (h : Apart left right) :
    claimAll right (claimAll left kept) = claimAll left (claimAll right kept) := by
  apply ((hk.claimAll hl.1).claimAll hr.1).ext ((hk.claimAll hr.1).claimAll hl.1)
  intro u
  rw [mem_claimAll_apart hl hr hk h, mem_claimAll_apart hr hl hk h.symm, or_comm (a := u ∈ left)]

theorem claimAll_flatMap_comm (hp : ∀ b, InOrder (propose b)) (hk : InOrder kept)
    (h : ∀ b ∈ xs, Apart (propose a) (propose b)) :
    claimAll (propose a) (claimAll (xs.flatMap propose) kept) =
      claimAll (xs.flatMap propose) (claimAll (propose a) kept) := by
  induction xs generalizing kept with
  | nil => rfl
  | cons b xs ih =>
      rw [List.forall_mem_cons] at h
      rw [List.flatMap_cons, claimAll_append, claimAll_append, ih (hk.claimAll (hp b).1) h.2,
        claimAll_comm (hp b) (hp a) hk h.1.symm]

theorem not_mem_of_sublist {b : α} (hnodup : (xs ++ a :: ys).Nodup)
    (h : [a, b].Sublist (xs ++ a :: ys)) : b ∉ xs := by
  intro hb
  obtain ⟨hxs, -, hapart⟩ := List.nodup_append.mp hnodup
  obtain ⟨front, back, he, hfront, hback⟩ := List.sublist_append_iff.mp h
  cases front with
  | nil =>
      rw [List.nil_append] at he
      rw [← he, List.cons_sublist_cons, List.singleton_sublist] at hback
      exact hapart b hb b (List.mem_cons_of_mem a hback) rfl
  | cons c front =>
      obtain ⟨rfl, -⟩ := List.cons.inj he
      exact hapart a (hfront.subset List.mem_cons_self) a List.mem_cons_self rfl

/-- The order of proposers matters only where their proposals meet. -/
theorem claimAll_perm [DecidableEq α] (hp : ∀ b, InOrder (propose b)) (hk : InOrder kept)
    (hperm : ys.Perm xs) (hnodup : xs.Nodup)
    (h : xs.Pairwise fun a b => Apart (propose a) (propose b) ∨ [a, b].Sublist ys) :
    claimAll (ys.flatMap propose) kept = claimAll (xs.flatMap propose) kept := by
  induction xs generalizing ys kept with
  | nil => rw [hperm.eq_nil]
  | cons a xs ih =>
      rw [List.pairwise_cons] at h
      have hys := hperm.nodup_iff.mpr hnodup
      obtain ⟨before, after, rfl⟩ := List.append_of_mem (hperm.mem_iff.mpr List.mem_cons_self)
      have hrest : (before ++ after).Perm xs :=
        (List.perm_cons a).mp (List.perm_middle.symm.trans hperm)
      rw [List.nodup_cons] at hnodup
      have hbefore : a ∉ before := fun hm =>
        hnodup.1 (hrest.mem_iff.mp (List.mem_append_left _ hm))
      -- whatever comes before `a` here comes after it there, so it is apart from it
      have hapart : ∀ b ∈ before, Apart (propose a) (propose b) := by
        intro b hb
        have hm := hrest.mem_iff.mp (List.mem_append_left _ hb)
        exact (h.1 b hm).resolve_right fun hsub => not_mem_of_sublist hys hsub hb
      have hkeep {b c : α} (hb : b ∈ xs) (hc : c ∈ xs)
          (hsub : [b, c].Sublist (before ++ a :: after)) : [b, c].Sublist (before ++ after) := by
        have hne : a ∉ [b, c] := by
          rintro hm
          rcases List.mem_cons.mp hm with rfl | hm
          · exact hnodup.1 hb
          · exact hnodup.1 (List.mem_singleton.mp hm ▸ hc)
        have herase := hsub.erase a
        rwa [List.erase_of_not_mem hne, List.erase_append_right _ hbefore,
          List.erase_cons_head] at herase
      have hpairs := h.2.imp_of_mem fun hb hc => Or.imp_right (hkeep hb hc)
      rw [List.flatMap_append, List.flatMap_cons, claimAll_append, claimAll_append,
        claimAll_flatMap_comm hp hk hapart, ← claimAll_append, ← List.flatMap_append,
        ih (hk.claimAll (hp a).1) hrest hnodup.2 hpairs, List.flatMap_cons, claimAll_append]

end PioSyntax.Token

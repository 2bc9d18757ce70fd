import Mathlib.Tactic.Tauto
import PioSyntax.Classification

namespace PioSyntax

def Span.Overlaps (a b : Span) : Prop :=
  ∃ i, (a.start ≤ i ∧ i < a.stop) ∧ b.start ≤ i ∧ i < b.stop

theorem Span.overlaps_iff {a b : Span} :
    a.Overlaps b ↔ a.start < b.stop ∧ b.start < a.stop ∧ a.start < a.stop ∧ b.start < b.stop := by
  constructor
  · rintro ⟨i, ha, hb⟩
    omega
  · intro h
    exact ⟨max a.start b.start, by omega, by omega⟩

theorem Span.overlaps_comm {a b : Span} : a.Overlaps b ↔ b.Overlaps a :=
  exists_congr fun _ => and_comm

instance (a b : Span) : Decidable (a.Overlaps b) := decidable_of_iff' _ Span.overlaps_iff

namespace Token

variable {t u : Token} {tokens kept proposed : List Token}

def InOrder (tokens : List Token) : Prop :=
  (∀ t ∈ tokens, t.span.start < t.span.stop) ∧
    tokens.Pairwise fun t u => t.span.stop ≤ u.span.start

theorem inOrder_nil : InOrder [] := ⟨by simp, .nil⟩

theorem inOrder_cons : InOrder (t :: tokens) ↔
    t.span.start < t.span.stop ∧ (∀ u ∈ tokens, t.span.stop ≤ u.span.start) ∧ InOrder tokens := by
  simp only [InOrder, List.mem_cons, forall_eq_or_imp, List.pairwise_cons]
  tauto

theorem inOrder_append : InOrder (kept ++ tokens) ↔
    InOrder kept ∧ InOrder tokens ∧ ∀ t ∈ kept, ∀ u ∈ tokens, t.span.stop ≤ u.span.start := by
  simp only [InOrder, List.mem_append, List.pairwise_append]
  constructor
  · rintro ⟨h, hk, ht, hd⟩
    exact ⟨⟨fun t m => h t (.inl m), hk⟩, ⟨fun t m => h t (.inr m), ht⟩, hd⟩
  · rintro ⟨⟨h, hk⟩, ⟨h', ht⟩, hd⟩
    exact ⟨fun t m => m.elim (h t) (h' t), hk, ht, hd⟩

theorem InOrder.sublist (h : InOrder tokens) (hs : kept.Sublist tokens) : InOrder kept :=
  ⟨fun t ht => h.1 t (hs.subset ht), h.2.sublist hs⟩

theorem InOrder.ext (hk : InOrder kept) (ht : InOrder tokens) (h : ∀ t, t ∈ kept ↔ t ∈ tokens) :
    kept = tokens := by
  induction kept generalizing tokens with
  | nil => exact (List.eq_nil_iff_forall_not_mem.mpr fun t => by simpa using (h t).not).symm
  | cons a kept ih =>
      cases tokens with
      | nil => exact absurd ((h a).mp (by simp)) (by simp)
      | cons b tokens =>
          obtain ⟨ha, hak, hk'⟩ := inOrder_cons.mp hk
          obtain ⟨hb, hbt, ht'⟩ := inOrder_cons.mp ht
          have hab : a = b := by
            rcases List.mem_cons.mp ((h a).mp (by simp)) with rfl | hat
            · rfl
            · rcases List.mem_cons.mp ((h b).mpr (by simp)) with rfl | hbk
              · rfl
              · have h₁ := hbt a hat
                have h₂ := hak b hbk
                omega
          subst hab
          apply congrArg (a :: ·)
          apply ih hk' ht'
          intro t
          constructor
          · intro hm
            have hs := hak t hm
            rcases List.mem_cons.mp ((h t).mp (List.mem_cons_of_mem _ hm)) with rfl | hm'
            · omega
            · exact hm'
          · intro hm
            have hs := hbt t hm
            rcases List.mem_cons.mp ((h t).mpr (List.mem_cons_of_mem _ hm)) with rfl | hm'
            · omega
            · exact hm'

theorem sublist_claim (t : Token) (kept : List Token) : kept.Sublist (t.claim kept) := by
  induction kept with
  | nil => exact List.nil_sublist _
  | cons k kept ih =>
      simp only [claim]
      split
      · exact List.sublist_cons_self _ _
      · split
        · exact ih.cons_cons k
        · exact List.Sublist.refl _

theorem mem_claim (ht : t.span.start < t.span.stop) (h : InOrder kept) :
    u ∈ t.claim kept ↔ u ∈ kept ∨ u = t ∧ ∀ k ∈ kept, ¬ t.span.Overlaps k.span := by
  induction kept with
  | nil => simp [claim]
  | cons k kept ih =>
      obtain ⟨hk, hkept, h⟩ := inOrder_cons.mp h
      simp only [claim]
      split
      · next hlt =>
          have hfree : ∀ j ∈ k :: kept, ¬ t.span.Overlaps j.span := by
            intro j hj
            rcases List.mem_cons.mp hj with rfl | hj
            · rw [Span.overlaps_iff]; omega
            · have := hkept j hj
              rw [Span.overlaps_iff]; omega
          simp only [List.mem_cons (a := u) (b := t)]
          tauto
      · split
        · next hgt =>
            have hfree : ¬ t.span.Overlaps k.span := by rw [Span.overlaps_iff]; omega
            simp only [List.mem_cons, ih h, forall_eq_or_imp]
            tauto
        · have hmeet : t.span.Overlaps k.span := by rw [Span.overlaps_iff]; omega
          simp only [List.mem_cons, forall_eq_or_imp]
          tauto

theorem InOrder.claim (ht : t.span.start < t.span.stop) (h : InOrder kept) :
    InOrder (t.claim kept) := by
  induction kept with
  | nil => simpa [Token.claim, inOrder_cons, inOrder_nil] using ht
  | cons k kept ih =>
      obtain ⟨hk, hkept, h'⟩ := inOrder_cons.mp h
      simp only [Token.claim]
      split
      · next hlt =>
          refine inOrder_cons.mpr ⟨ht, ?_, h⟩
          intro j hj
          rcases List.mem_cons.mp hj with rfl | hj
          · exact hlt
          · have := hkept j hj
            omega
      · split
        · next hgt =>
            refine inOrder_cons.mpr ⟨hk, ?_, ih h'⟩
            intro j hj
            rcases (mem_claim ht h').mp hj with hj | ⟨rfl, -⟩
            · exact hkept j hj
            · exact hgt
        · exact h

def claimAll (proposed kept : List Token) : List Token :=
  proposed.foldl (fun kept t => t.claim kept) kept

@[simp] theorem claimAll_nil : claimAll [] kept = kept := rfl

@[simp] theorem claimAll_cons : claimAll (t :: proposed) kept = claimAll proposed (t.claim kept) :=
  rfl

theorem claimAll_append : claimAll (proposed ++ tokens) kept =
    claimAll tokens (claimAll proposed kept) := List.foldl_append

theorem sublist_claimAll (proposed kept : List Token) : kept.Sublist (claimAll proposed kept) := by
  induction proposed generalizing kept with
  | nil => exact List.Sublist.refl _
  | cons t proposed ih => exact (sublist_claim t kept).trans (ih _)

theorem mem_or_eq_of_mem_claim (h : u ∈ t.claim kept) : u ∈ kept ∨ u = t := by
  induction kept with
  | nil => exact .inr (List.mem_singleton.mp h)
  | cons k kept ih =>
      simp only [claim] at h
      split at h
      · exact (List.mem_cons.mp h).symm
      · split at h
        · rcases List.mem_cons.mp h with rfl | h
          · exact .inl (by simp)
          · exact (ih h).imp_left (List.mem_cons_of_mem k)
        · exact .inl h

theorem mem_or_mem_of_mem_claimAll (h : u ∈ claimAll proposed kept) : u ∈ kept ∨ u ∈ proposed := by
  induction proposed generalizing kept with
  | nil => exact .inl h
  | cons t proposed ih =>
      rcases ih h with h | h
      · exact (mem_or_eq_of_mem_claim h).imp_right fun he => by simp [he]
      · exact .inr (List.mem_cons_of_mem t h)

theorem InOrder.claimAll (hp : ∀ t ∈ proposed, t.span.start < t.span.stop) (h : InOrder kept) :
    InOrder (claimAll proposed kept) := by
  induction proposed generalizing kept with
  | nil => exact h
  | cons t proposed ih =>
      rw [List.forall_mem_cons] at hp
      exact ih hp.2 (h.claim hp.1)

/-- Of proposals that are apart from each other, those are kept that overlap nothing kept before. -/
theorem mem_claimAll (hp : InOrder proposed) (h : InOrder kept) :
    u ∈ claimAll proposed kept ↔
      u ∈ kept ∨ u ∈ proposed ∧ ∀ k ∈ kept, ¬ u.span.Overlaps k.span := by
  induction proposed generalizing kept with
  | nil => simp
  | cons t proposed ih =>
      obtain ⟨ht, htp, hp⟩ := inOrder_cons.mp hp
      rw [claimAll_cons, ih hp (h.claim ht), mem_claim ht h]
      -- whether `t` is kept makes no difference to the proposals after it
      have hapart : u ∈ proposed →
          ((∀ k ∈ t.claim kept, ¬ u.span.Overlaps k.span) ↔
            ∀ k ∈ kept, ¬ u.span.Overlaps k.span) := by
        intro hu
        constructor
        · exact fun hf k hk => hf k ((mem_claim ht h).mpr (.inl hk))
        · intro hf k hk
          rcases (mem_claim ht h).mp hk with hk | ⟨rfl, -⟩
          · exact hf k hk
          · have := htp u hu
            rw [Span.overlaps_iff]; omega
      rw [List.mem_cons]
      constructor
      · rintro ((hk | ⟨rfl, hf⟩) | ⟨hu, hf⟩)
        · exact .inl hk
        · exact .inr ⟨.inl rfl, hf⟩
        · exact .inr ⟨.inr hu, (hapart hu).mp hf⟩
      · rintro (hk | ⟨rfl | hu, hf⟩)
        · exact .inl (.inl hk)
        · exact .inl (.inr ⟨rfl, hf⟩)
        · exact .inr ⟨hu, (hapart hu).mpr hf⟩

end Token

end PioSyntax

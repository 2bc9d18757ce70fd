import PioSyntax.Proofs.Classification.Tokens

namespace PioSyntax.Classification

open Text

variable {rules more : List Rule} {source : Text} {t u : Token} {n i : Nat}

/-- The tokens that are there when the first `n` rules have run. -/
def stage (rules : List Rule) (source : Text) (n : Nat) : List Token :=
  (ofRules (rules.take n) source).tokens

/-- The tokens that the rule at index `i` adds to those of the rules before it. -/
def produced (rules : List Rule) (source : Text) (i : Nat) : List Token :=
  (stage rules source (i + 1)).filter (· ∉ stage rules source i)

theorem tokens_append (rules more : List Rule) (source : Text) :
    (ofRules (rules ++ more) source).tokens =
      Token.claimAll (more.flatMap (proposals source)) (ofRules rules source).tokens := by
  rw [tokens_ofRules, tokens_ofRules, List.flatMap_append, Token.claimAll_append]

theorem stage_zero : stage rules source 0 = blockTokens source := by
  rw [stage, tokens_ofRules]
  rfl

theorem stage_length : stage rules source rules.length = (ofRules rules source).tokens := by
  rw [stage, List.take_length]

theorem stage_succ (hi : i < rules.length) : stage rules source (i + 1) =
    Token.claimAll (proposals source rules[i]) (stage rules source i) := by
  rw [stage, List.take_succ_eq_append_getElem hi, tokens_append, List.flatMap_singleton, stage]

theorem stage_inOrder : Token.InOrder (stage rules source n) := tokens_inOrder _ _

theorem mem_stage_succ (hi : i < rules.length) : t ∈ stage rules source (i + 1) ↔
    t ∈ stage rules source i ∨
      t ∈ proposals source rules[i] ∧ ∀ u ∈ stage rules source i, ¬ t.span.Overlaps u.span := by
  rw [stage_succ hi, Token.mem_claimAll (proposals_inOrder source _) stage_inOrder]

theorem mem_produced_iff (hi : i < rules.length) : t ∈ produced rules source i ↔
    t ∈ proposals source rules[i] ∧ ∀ u ∈ stage rules source i, ¬ t.span.Overlaps u.span := by
  rw [produced, List.mem_filter, decide_eq_true_eq, mem_stage_succ hi]
  constructor
  · rintro ⟨ht | ht, hn⟩
    · exact absurd ht hn
    · exact ht
  · rintro ⟨ht, hfree⟩
    -- a token that is not empty overlaps itself
    have hne := (proposals_inOrder source _).1 t ht
    exact ⟨.inr ⟨ht, hfree⟩, fun hm => hfree t hm (Span.overlaps_iff.mpr ⟨hne, hne, hne, hne⟩)⟩

theorem stage_succ_perm (hi : i < rules.length) :
    (stage rules source (i + 1)).Perm (stage rules source i ++ produced rules source i) := by
  have hold : (stage rules source (i + 1)).filter (· ∈ stage rules source i) =
      stage rules source i := by
    apply (stage_inOrder.sublist List.filter_sublist).ext stage_inOrder
    intro t
    simp only [List.mem_filter, decide_eq_true_eq, mem_stage_succ hi]
    exact ⟨fun h => h.2, fun h => ⟨.inl h, h⟩⟩
  have h := List.filter_append_perm (· ∈ stage rules source i) (stage rules source (i + 1))
  rw [hold] at h
  simpa [produced] using h.symm

theorem stage_perm (hn : n ≤ rules.length) :
    (stage rules source n).Perm
      (blockTokens source ++ (List.range n).flatMap (produced rules source)) := by
  induction n with
  | zero => rw [stage_zero, List.range_zero, List.flatMap_nil, List.append_nil]
  | succ i ih =>
      rw [List.range_succ, List.flatMap_append, List.flatMap_singleton, ← List.append_assoc]
      exact (stage_succ_perm hn).trans ((ih (Nat.le_of_succ_le hn)).append_right _)

theorem mem_stage_iff (hn : n ≤ rules.length) : t ∈ stage rules source n ↔
    t ∈ blockTokens source ∨ ∃ j < n, t ∈ produced rules source j := by
  rw [(stage_perm hn).mem_iff]
  simp

theorem free_iff (hi : i < rules.length) (ht : t ∈ proposals source rules[i]) :
    (∀ u ∈ stage rules source i, ¬ t.span.Overlaps u.span) ↔
      ∀ j < i, ∀ u ∈ produced rules source j, ¬ t.span.Overlaps u.span := by
  constructor
  · intro h j hj u hu
    exact h u ((mem_stage_iff (Nat.le_of_lt hi)).mpr (.inr ⟨j, hj, hu⟩))
  · intro h u hu
    rcases (mem_stage_iff (Nat.le_of_lt hi)).mp hu with hu | ⟨j, hj, hu⟩
    · exact proposal_apart ht hu
    · exact h j hj u hu

theorem mem_produced (hi : i < rules.length) : t ∈ produced rules source i ↔
    t ∈ proposals source rules[i] ∧
      ∀ j < i, ∀ u ∈ produced rules source j, ¬ t.span.Overlaps u.span := by
  rw [mem_produced_iff hi]
  exact and_congr_right fun ht => free_iff hi ht

theorem produced_eq_filter (hi : i < rules.length) : produced rules source i =
    (proposals source rules[i]).filter fun t =>
      ∀ j < i, ∀ u ∈ produced rules source j, ¬ t.span.Overlaps u.span := by
  refine (stage_inOrder.sublist List.filter_sublist).ext
    ((proposals_inOrder source _).sublist List.filter_sublist) fun t => ?_
  change t ∈ produced rules source i ↔ _
  rw [mem_produced hi, List.mem_filter, decide_eq_true_eq]

/-- Earlier rules win: a rule keeps exactly those of its proposals that overlap no token of a rule
before it, and rules after it take nothing away. -/
theorem earlier_rules_win {c : Classification} (h : ofRules? rules source = .ok c) :
    c.tokens.Perm
      (blockTokens source ++ (List.range rules.length).flatMap (produced rules source)) ∧
    (∀ i (hi : i < rules.length), produced rules source i =
      (proposals source rules[i]).filter fun t =>
        ∀ j < i, ∀ u ∈ produced rules source j, ¬ t.span.Overlaps u.span) ∧
    (∀ i (hi : i < rules.length), ∀ t ∈ proposals source rules[i], t ∉ produced rules source i →
      ∃ j < i, ∃ u ∈ produced rules source j, t.span.Overlaps u.span) ∧
    ∀ more d, ofRules? (rules ++ more) source = .ok d → c.tokens.Sublist d.tokens := by
  rw [eq_ofRules h]
  refine ⟨?_, fun i hi => produced_eq_filter hi, fun i hi t ht hn => ?_, fun more d hd => ?_⟩
  · rw [← stage_length]
    exact stage_perm (Nat.le_refl _)
  · rw [mem_produced hi] at hn
    simpa [ht] using hn
  · rw [eq_ofRules hd, tokens_append]
    exact Token.sublist_claimAll _ _

theorem category_injective : ∀ i j : Fin defaultRules.length,
    defaultRules[i].category = defaultRules[j].category → i = j := by decide

/-- The tokens of a category are those that its rule adds: no two default rules have a category in
common, and none has one with the tokens of blocks. -/
theorem mem_produced_default (hi : i < defaultRules.length) :
    t ∈ produced defaultRules source i ↔
      t ∈ (classify source).tokens ∧ t.category = defaultRules[i].category := by
  have hcategory {j : Nat} (hj : j < defaultRules.length)
      (ht : t ∈ produced defaultRules source j) : t.category = defaultRules[j].category :=
    (mem_proposals ((mem_produced hj).mp ht).1).1
  rw [classify, ← stage_length, mem_stage_iff (Nat.le_refl _)]
  constructor
  · intro ht
    exact ⟨.inr ⟨i, hi, ht⟩, hcategory hi ht⟩
  · rintro ⟨ht | ⟨j, hj, ht⟩, hc⟩
    · have hblock : ∀ r ∈ defaultRules,
          r.category ≠ .foreignBlockDelimiter ∧ r.category ≠ .foreignBlock := by decide
      have hne := hblock _ (List.getElem_mem hi)
      rw [← hc] at hne
      exact absurd (mem_blockTokens ht).2 (not_or.mpr hne)
    · have hij : (⟨i, hi⟩ : Fin defaultRules.length) = ⟨j, hj⟩ :=
        category_injective _ _ (hc.symm.trans (hcategory hj ht))
      obtain rfl := Fin.mk.inj hij
      exact ht

theorem mem_proposals_of_category {r : Rule} (hr : r ∈ defaultRules)
    (ht : t ∈ (classify source).tokens) (hc : t.category = r.category) : t ∈ proposals source r := by
  obtain ⟨i, hi, rfl⟩ := List.getElem_of_mem hr
  exact ((mem_produced hi).mp ((mem_produced_default hi).mpr ⟨ht, hc⟩)).1

/-- The register in a decrement is lost to the jump condition. -/
theorem earlier_rules_win_decrement :
    ∃ j < 6, ∃ u ∈ produced defaultRules "x-- x" j, Span.Overlaps ⟨0, 1⟩ u.span :=
  (earlier_rules_win (c := classify "x-- x") rfl).2.2.1 6 (by decide) ⟨.register, ⟨0, 1⟩, "x"⟩
    (by decide) (by decide)

end PioSyntax.Classification

import PioSyntax.Proofs.Classification.Words
import PioSyntax.Proofs.Token.Reorder

namespace PioSyntax

open Text Pattern

def jmpConditionRule : Rule := ⟨.jmpCondition, .keyword Vocabulary.jmpConditions, 0⟩

def registerRule : Rule := ⟨.register, .keyword Vocabulary.registers, 0⟩

def movOperatorRule : Rule := ⟨.movOperator, .operator, 0⟩

variable {source : Text} {r r' : Rule} {t : Token} {s : Segment} {later : List Rule} {a b c d : Nat}

theorem Text.between_isInfix (hab : a ≤ b) (hca : c ≤ a) (hbd : b ≤ d) :
    source.between a b <:+: source.between c d := by
  refine ⟨source.between c a, source.between b d, ?_⟩
  rw [← between_eq_append hca hab, ← between_eq_append (Nat.le_trans hca hab) hbd]

namespace Rule

theorem exists_keyword {words : List Text} (hp : r.pattern = .keyword words) (hg : r.group = 0)
    (ht : t ∈ r.candidates s) : ∃ w ∈ findable words, sameLetters w t.text = true := by
  obtain ⟨f, hf, ht⟩ := List.mem_filterMap.mp ht
  obtain ⟨part, hpart, -, rfl⟩ := token?_eq_some.mp ht
  obtain ⟨pre, -, -, hr⟩ := mem_find hf
  obtain ⟨taken, rest, marked, htext, hhit, htakes⟩ := recognise_iff.mp hr
  rw [groupOf, if_pos hg, hhit] at hpart
  obtain rfl := Option.some.inj hpart
  rw [hp] at htakes
  cases htakes with
  | @keyword _ _ word _ _ hb hd hw hs =>
      refine ⟨word, hw, ?_⟩
      rwa [htext, Span.slice, between_append_left (Nat.le_refl _), between_full]

/-- No condition of a jump holds one of the words of the other rules, but for registers. -/
theorem not_infix_jmpCondition : ∀ r ∈ defaultRules, r ≠ jmpConditionRule → r ≠ registerRule →
    ∀ w ∈ r.folded, ∀ v ∈ jmpConditionRule.folded, ¬ w <:+: v := by
  decide +kernel

end Rule

namespace Classification

theorem jmpCondition_folded (ht : t ∈ proposals source jmpConditionRule) :
    t.text.map fold ∈ jmpConditionRule.folded := by
  rw [proposals] at ht
  obtain ⟨segment, -, ht⟩ := List.mem_flatMap.mp ht
  obtain ⟨w, hw, hs⟩ := Rule.exists_keyword rfl rfl ht
  exact List.mem_map.mpr ⟨w, hw, sameLetters_iff.mp hs⟩

theorem words_apart (hr : r ∈ defaultRules) (hr' : r' ∈ defaultRules) (hw : r.pattern.TakesWords)
    (hw' : r'.pattern.TakesWords) (hne : r ≠ r') :
    Token.Apart (proposals source r) (proposals source r') := by
  intro t ht u hu ho
  obtain ⟨hword, -, ha, -⟩ := (mem_proposals_words hw (Rule.group_of_takesWords r hr hw)).mp ht
  obtain ⟨hword', -, ha', -⟩ :=
    (mem_proposals_words hw' (Rule.group_of_takesWords r' hr' hw')).mp hu
  rw [← hword.eq_of_overlaps hword' ho] at ha'
  exact hne (Rule.eq_of_accepts hr hr' hw hw' ha ha')

theorem operator_words_apart (hr : r ∈ defaultRules) (hw : r.pattern.TakesWords) :
    Token.Apart (proposals source r) (proposals source movOperatorRule) := by
  intro t ht u hu
  exact operator_apart rfl hu
    ((mem_proposals_words hw (Rule.group_of_takesWords r hr hw)).mp ht).1

theorem jmpCondition_words_apart (hr : r ∈ defaultRules) (hw : r.pattern.TakesWords)
    (hne : r ≠ registerRule) :
    Token.Apart (proposals source r) (proposals source jmpConditionRule) := by
  intro t ht u hu ho
  obtain ⟨hword, -, ha, -⟩ := (mem_proposals_words hw (Rule.group_of_takesWords r hr hw)).mp ht
  obtain ⟨hlow, hhigh⟩ := hword.within (proposals_breaksAt hu).1 (proposals_breaksAt hu).2 ho
  have hinside : (t.span.slice source).map fold <:+: u.text.map fold := by
    rw [(mem_proposals hu).2.1.2.2]
    exact (between_isInfix (Nat.le_of_lt hword.start_lt) hlow hhigh).map fold
  have hcondition := jmpCondition_folded hu
  rcases (Rule.accepts_iff hw).mp ha with ⟨-, hm⟩ | ⟨-, hn⟩
  · have hjmp : r ≠ jmpConditionRule := by
      rintro rfl
      exact absurd hw (by decide)
    exact Rule.not_infix_jmpCondition r hr hjmp hne _ hm _ hcondition hinside
  · obtain ⟨d, digits, he, hd⟩ := exists_digit hn
    have hm : d ∈ t.span.slice source := by simp [he]
    have hfold := hinside.subset (Rule.digit_mem_fold hd hm)
    have hall := Rule.digit_not_folded jmpConditionRule (by decide) _ hcondition
    exact absurd (List.all_eq_true.mp hall d hfold) (by simp [hd])

/-- Of the later rules, only two pairs can meet. -/
theorem later_apart (hr : r ∈ defaultRules.drop 4) (hr' : r' ∈ defaultRules.drop 4) (hne : r ≠ r')
    (hlast : r' ≠ jmpConditionRule) :
    Token.Apart (proposals source r) (proposals source r') ∨
      r = jmpConditionRule ∧ (r' = registerRule ∨ r' = movOperatorRule) := by
  have hkind : ∀ r ∈ defaultRules.drop 4,
      r.pattern.TakesWords ∨ r = jmpConditionRule ∨ r = movOperatorRule := by decide
  have hm := List.mem_of_mem_drop hr
  have hm' := List.mem_of_mem_drop hr'
  rcases hkind r' hr' with hw' | rfl | rfl
  · rcases hkind r hr with hw | rfl | rfl
    · exact .inl (words_apart hm hm' hw hw' hne)
    · by_cases hregister : r' = registerRule
      · exact .inr ⟨rfl, .inl hregister⟩
      · exact .inl (jmpCondition_words_apart hm' hw' hregister).symm
    · exact .inl (operator_words_apart hm' hw').symm
  · exact absurd rfl hlast
  · rcases hkind r hr with hw | rfl | rfl
    · exact .inl (operator_words_apart hm hw)
    · exact .inr ⟨rfl, .inr rfl⟩
    · exact absurd rfl hne

/-- Of the later rules, only that of jump conditions has to come before two others. -/
theorem ofRules?_reordered (hperm : later.Perm (defaultRules.drop 4))
    (hregister : [jmpConditionRule, registerRule].Sublist later)
    (hoperator : [jmpConditionRule, movOperatorRule].Sublist later) (source : Text) :
    ofRules? (defaultRules.take 4 ++ later) source = .ok (classify source) := by
  have hgroups : ∀ r ∈ defaultRules.take 4 ++ later, r.hasGroup = true := by
    have hdefault : ∀ r ∈ defaultRules, r.hasGroup = true := by decide
    intro r hr
    apply hdefault
    rcases List.mem_append.mp hr with hr | hr
    · exact List.mem_of_mem_take hr
    · exact List.mem_of_mem_drop (hperm.mem_iff.mp hr)
  have hpairs : (defaultRules.drop 4).Pairwise fun r r' =>
      Token.Apart (proposals source r) (proposals source r') ∨ [r, r'].Sublist later := by
    have hfirst : (defaultRules.drop 4).Pairwise fun r r' => r ≠ r' ∧ r' ≠ jmpConditionRule := by
      decide
    refine hfirst.imp_of_mem fun hr hr' h => ?_
    refine (later_apart hr hr' h.1 h.2).imp_right ?_
    rintro ⟨rfl, rfl | rfl⟩
    · exact hregister
    · exact hoperator
  -- the first four rules come before both orders, so what they keep is the same
  have htokens : (ofRules (defaultRules.take 4 ++ later) source).tokens =
      (classify source).tokens := by
    have hrules : defaultRules = defaultRules.take 4 ++ defaultRules.drop 4 := rfl
    conv => rhs; rw [classify, hrules]
    rw [tokens_append, tokens_append]
    exact Token.claimAll_perm (proposals_inOrder source) (tokens_inOrder _ _) hperm (by decide)
      hpairs
  rw [ofRules?_of_hasGroup hgroups]
  exact congrArg (fun tokens => Except.ok (mk source tokens (ForeignBlock.find source))) htokens

theorem ofRules?_reordered_x :
    let later := [⟨.numericLiteral, .number, 0⟩, jmpConditionRule, movOperatorRule,
      ⟨.modifier, .keyword Vocabulary.modifiers, 0⟩, registerRule,
      ⟨.instruction, .keyword Vocabulary.instructions, 0⟩]
    later.Perm (defaultRules.drop 4) ∧ [jmpConditionRule, registerRule].Sublist later ∧
      [jmpConditionRule, movOperatorRule].Sublist later ∧
      ofRules? (defaultRules.take 4 ++ later) "jmp x-- 1" = .ok (classify "jmp x-- 1") := by
  intro later
  have hperm : later.Perm (defaultRules.drop 4) := by decide
  have hregister : [jmpConditionRule, registerRule].Sublist later := by decide
  have hoperator : [jmpConditionRule, movOperatorRule].Sublist later := by decide
  exact ⟨hperm, hregister, hoperator, ofRules?_reordered hperm hregister hoperator "jmp x-- 1"⟩

end Classification

end PioSyntax

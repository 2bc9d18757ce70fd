import PioSyntax.Proofs.Classification.Words

namespace PioSyntax.Classification

open Text Pattern

def keywordTables : List (Category × List Text) :=
  [ (.instruction, Vocabulary.instructions), (.register, Vocabulary.registers),
    (.modifier, Vocabulary.modifiers) ]

def IsKeyword (source : Text) (c : Category) (s : Span) : Prop :=
  (source.take s.start).getLast? ≠ some '.' ∧ ∃ words, (c, words) ∈ keywordTables ∧
    ∃ w ∈ words, sameLetters w (s.slice source) = true

/-- Tokens of these categories may hold words that are none of their own. -/
def wrappers : List Category := [.comment, .directive, .label, .arrayIndex, .jmpCondition]

structure IsOpenWord (source : Text) (s : Span) : Prop where
  word : s.IsWord source
  outside : ∀ b ∈ (classify source).blocks, ¬ s.Overlaps b.region
  free : ∀ t ∈ (classify source).tokens, t.category ∈ wrappers → ¬ s.Overlaps t.span

def touching (source : Text) (s : Span) : List Token :=
  (classify source).tokens.filter fun t => s.Overlaps t.span

variable {source : Text} {r : Rule} {t : Token} {s : Span} {c : Category}

theorem defaultRules_wrap : ∀ r ∈ defaultRules,
    r.pattern.TakesWords ∨ r.category ∈ wrappers ∨ r.pattern = .operator := by decide

/-- A token that holds characters of an open word is this word, and a rule for words accepts it. -/
theorem IsOpenWord.of_overlaps (hs : IsOpenWord source s) (ht : t ∈ (classify source).tokens)
    (ho : s.Overlaps t.span) : ∃ r ∈ defaultRules, r.pattern.TakesWords ∧
      r.pattern.Accepts (source.take s.start).getLast? (s.slice source) ∧
      t = ⟨r.category, s, s.slice source⟩ := by
  rcases mem_tokens ht with hblock | ⟨r, hr, hp⟩
  · obtain ⟨b, hb, htoken⟩ := List.mem_flatMap.mp hblock
    have hregion := (ForeignBlock.placed_find source).token_region hb htoken
    have hapart := hs.outside b hb
    rw [Span.overlaps_iff] at ho hapart
    omega
  · rcases defaultRules_wrap r hr with hw | hw | hw
    · obtain ⟨hword, -, haccepts, he⟩ :=
        (mem_proposals_words hw (Rule.group_of_takesWords r hr hw)).mp hp
      obtain rfl := hs.word.eq_of_overlaps hword ho
      exact ⟨r, hr, hw, haccepts, he⟩
    · exact absurd ho (hs.free t ht ((mem_proposals hp).1 ▸ hw))
    · exact absurd ho (operator_apart hw hp hs.word)

theorem IsOpenWord.touching_eq (hs : IsOpenWord source s) (hr : r ∈ defaultRules)
    (hw : r.pattern.TakesWords)
    (ha : r.pattern.Accepts (source.take s.start).getLast? (s.slice source)) :
    touching source s = [⟨r.category, s, s.slice source⟩] := by
  have horder := tokens_inOrder defaultRules source
  have heq : ∀ t ∈ (classify source).tokens, s.Overlaps t.span →
      t = ⟨r.category, s, s.slice source⟩ := by
    intro t ht ho
    obtain ⟨r', hr', hw', ha', he⟩ := hs.of_overlaps ht ho
    rw [he, Rule.eq_of_accepts hr hr' hw hw' ha ha']
  have hself : s.Overlaps s := Span.overlaps_iff.mpr
    ⟨hs.word.start_lt, hs.word.start_lt, hs.word.start_lt, hs.word.start_lt⟩
  have hproposed : ⟨r.category, s, s.slice source⟩ ∈ proposals source r :=
    (mem_proposals_words hw (Rule.group_of_takesWords r hr hw)).mpr
      ⟨hs.word, hs.outside, ha, rfl⟩
  obtain ⟨k, hk, ho⟩ := exists_overlapping hr hproposed
  have hm := heq k hk ho ▸ hk
  apply (horder.sublist List.filter_sublist).ext (horder.sublist (List.singleton_sublist.mpr hm))
  intro t
  simp only [List.mem_filter, decide_eq_true_eq, List.mem_singleton]
  constructor
  · rintro ⟨ht, ho⟩
    exact heq t ht ho
  · rintro rfl
    exact ⟨hm, hself⟩

theorem IsOpenWord.touching_eq_nil (hs : IsOpenWord source s)
    (h : ∀ r ∈ defaultRules, r.pattern.TakesWords →
      ¬ r.pattern.Accepts (source.take s.start).getLast? (s.slice source)) :
    touching source s = [] := by
  rw [touching, List.filter_eq_nil_iff]
  intro t ht ho
  obtain ⟨r, hr, hw, ha, -⟩ := hs.of_overlaps ht (of_decide_eq_true ho)
  exact h r hr hw ha

theorem categoryAt_of_touching {offset : Int} (h : touching source s = [])
    (hlow : s.start ≤ offset) (hhigh : offset < s.stop) :
    (classify source).categoryAt offset = .plain := by
  apply categoryAt_of_uncovered
  intro t ht ho
  rw [touching, List.filter_eq_nil_iff] at h
  rw [Token.Covers] at ho
  apply h t ht
  exact decide_eq_true (Span.overlaps_iff.mpr (by omega))

def numberRule : Rule := ⟨.numericLiteral, .number, 0⟩

/-- The default rules for words are those of the keyword tables and the one for numbers. -/
theorem takesWords_iff : ∀ r ∈ defaultRules, r.pattern.TakesWords ↔
    r = numberRule ∨ ∃ e ∈ keywordTables, r = ⟨e.1, .keyword e.2, 0⟩ := by decide

theorem keyword_mem : ∀ e ∈ keywordTables, ⟨e.1, .keyword e.2, 0⟩ ∈ defaultRules := by decide

theorem not_mem_wrappers : ∀ r ∈ defaultRules, r.pattern.TakesWords → r.category ∉ wrappers := by
  decide

theorem isKeyword_iff : IsKeyword source c s ↔ ∃ r ∈ defaultRules, r.pattern.TakesWords ∧
    r ≠ numberRule ∧ r.category = c ∧
    r.pattern.Accepts (source.take s.start).getLast? (s.slice source) := by
  constructor
  · rintro ⟨hb, words, htable, hw⟩
    have hr := keyword_mem (c, words) htable
    exact ⟨_, hr, (takesWords_iff _ hr).mpr (.inr ⟨_, htable, rfl⟩), nofun, rfl, hb, hw⟩
  · rintro ⟨r, hr, hw, hne, rfl, haccepts⟩
    obtain ⟨⟨c, words⟩, htable, rfl⟩ := ((takesWords_iff r hr).mp hw).resolve_left hne
    exact ⟨haccepts.1, words, htable, haccepts.2⟩

theorem isOpenWord_of_mem (hr : r ∈ defaultRules) (hw : r.pattern.TakesWords)
    (ht : t ∈ (classify source).tokens) (hc : t.category = r.category) :
    IsOpenWord source t.span ∧
      r.pattern.Accepts (source.take t.span.start).getLast? (t.span.slice source) := by
  have hwrap := not_mem_wrappers r hr hw
  rw [← hc] at hwrap
  obtain ⟨hword, houtside, haccepts, -⟩ :=
    (mem_proposals_words hw (Rule.group_of_takesWords r hr hw)).mp
      (mem_proposals_of_category hr ht hc)
  refine ⟨⟨hword, houtside, fun u hu hcu ho => ?_⟩, haccepts⟩
  exact hwrap ((tokens_inOrder defaultRules source).eq_of_overlaps ht hu ho ▸ hcu)

/-- Open words are looked up in the keyword tables, then read as numbers, and else left plain. All
keyword and number tokens are such words, and no tile cuts a word. -/
theorem open_words (source : Text) :
    (∀ s, IsOpenWord source s →
      (∀ c, IsKeyword source c s → touching source s = [⟨c, s, s.slice source⟩]) ∧
      ((∀ c, ¬ IsKeyword source c s) → (s.slice source).IsNumeral →
        touching source s = [⟨.numericLiteral, s, s.slice source⟩]) ∧
      ((∀ c, ¬ IsKeyword source c s) → ¬ (s.slice source).IsNumeral →
        touching source s = [] ∧ ∀ offset : Int, s.start ≤ offset → offset < s.stop →
          (classify source).categoryAt offset = .plain)) ∧
    (∀ t ∈ (classify source).tokens, t.category ∈ keywordTables.map Prod.fst →
      IsOpenWord source t.span ∧ IsKeyword source t.category t.span) ∧
    (∀ t ∈ (classify source).tokens, t.category = .numericLiteral →
      IsOpenWord source t.span ∧ (∀ c, ¬ IsKeyword source c t.span) ∧
        (t.span.slice source).IsNumeral) ∧
    ∀ t ∈ (classify source).tokens ++ (classify source).withPlain,
      BreaksAt none source t.span.start ∧ BreaksAt none source t.span.stop := by
  have hnumber : numberRule ∈ defaultRules := by decide
  refine ⟨fun s hs => ⟨fun c hc => ?_, fun _ hn => ?_, fun hc hn => ?_⟩, fun t ht hc => ?_,
    fun t ht hc => ?_, fun t ht => ?_⟩
  · obtain ⟨r, hr, hw, -, rfl, haccepts⟩ := isKeyword_iff.mp hc
    exact hs.touching_eq hr hw haccepts
  · exact hs.touching_eq hnumber trivial (isNumber_iff.mpr hn)
  · have hnone : touching source s = [] := by
      apply hs.touching_eq_nil
      intro r hr hw haccepts
      by_cases hne : r = numberRule
      · rw [hne] at haccepts
        exact hn (isNumber_iff.mp haccepts)
      · exact hc r.category (isKeyword_iff.mpr ⟨r, hr, hw, hne, rfl, haccepts⟩)
    exact ⟨hnone, fun offset => categoryAt_of_touching hnone⟩
  · obtain ⟨⟨c, words⟩, htable, he⟩ := List.mem_map.mp hc
    have hr := keyword_mem (c, words) htable
    have hw := (takesWords_iff _ hr).mpr (.inr ⟨_, htable, rfl⟩)
    obtain ⟨hs, haccepts⟩ := isOpenWord_of_mem hr hw ht he.symm
    exact ⟨hs, isKeyword_iff.mpr ⟨_, hr, hw, nofun, he, haccepts⟩⟩
  · obtain ⟨hs, haccepts⟩ := isOpenWord_of_mem hnumber trivial ht hc
    refine ⟨hs, fun c hk => ?_, isNumber_iff.mp haccepts⟩
    obtain ⟨r, hr, hw, hne, -, ha⟩ := isKeyword_iff.mp hk
    exact hne (Rule.eq_of_accepts hr hnumber hw trivial ha haccepts)
  · rcases List.mem_append.mp ht with ht | ht
    · exact tokens_breaksAt ht
    · exact withPlain_breaksAt _ _ t ht

theorem isOpenWord_x : IsOpenWord "mov x, 10" ⟨4, 5⟩ where
  word := ⟨by decide, by decide, List.all_eq_true.mp rfl, rfl, rfl⟩
  outside := by decide
  free := by decide

theorem open_words_x :
    IsOpenWord "mov x, 10" ⟨4, 5⟩ ∧ IsKeyword "mov x, 10" .register ⟨4, 5⟩ ∧
      touching "mov x, 10" ⟨4, 5⟩ = [⟨.register, ⟨4, 5⟩, "x"⟩] := by
  have hk : IsKeyword "mov x, 10" .register ⟨4, 5⟩ :=
    ⟨by decide, Vocabulary.registers, by decide, "x", by decide, rfl⟩
  exact ⟨isOpenWord_x, hk, ((open_words "mov x, 10").1 ⟨4, 5⟩ isOpenWord_x).1 .register hk⟩

end PioSyntax.Classification

import PioSyntax.Proofs.Classification.Priority
import PioSyntax.Proofs.Classification.Tiling
import PioSyntax.Proofs.ForeignBlock.Words
import PioSyntax.Proofs.Rule.Vocabulary

namespace PioSyntax

open Text Pattern

namespace Classification

variable {source : Text} {rules : List Rule} {r : Rule} {t u : Token} {s : Span} {offset : Nat}
variable {text : Text} {tokens : List Token}

theorem blockTokens_breaksAt (ht : t ∈ blockTokens source) :
    BreaksAt none source t.span.start ∧ BreaksAt none source t.span.stop := by
  obtain ⟨b, hb, ht⟩ := List.mem_flatMap.mp ht
  exact (ForeignBlock.find_breaks source b hb).token ht

theorem proposals_breaksAt (ht : t ∈ proposals source r) :
    BreaksAt none source t.span.start ∧ BreaksAt none source t.span.stop := by
  rw [proposals_eq] at ht
  obtain ⟨segment, hs, ht⟩ := List.mem_flatMap.mp ht
  have hplaced := ForeignBlock.placed_find source
  have hat := hplaced.segment_isAt (Nat.zero_le _) hs
  have hend := ForeignBlock.segment_breaksAt hs
  obtain ⟨-, hstart, hne, hstop, -⟩ := Rule.mem_candidates ht
  obtain ⟨h₁, h₂⟩ := Rule.candidates_breaksAt ht
  rw [hplaced.segment_before (Nat.zero_le _) hs] at h₁ h₂
  have hb₁ := hat.breaksAt (by omega) hend h₁
  have hb₂ := hat.breaksAt (by omega) hend h₂
  rw [Nat.add_sub_cancel' hstart] at hb₁
  rw [Nat.add_sub_cancel' (by omega)] at hb₂
  exact ⟨hb₁, hb₂⟩

/-- No rules whatever cut a word. -/
theorem tokens_breaksAt (ht : t ∈ (ofRules rules source).tokens) :
    BreaksAt none source t.span.start ∧ BreaksAt none source t.span.stop := by
  rcases mem_tokens ht with ht | ⟨r, -, ht⟩
  · exact blockTokens_breaksAt ht
  · exact proposals_breaksAt ht

/-- What holds at the ends of tokens and of a text holds at the ends of its tiles. -/
theorem fillGaps_ends {P : Nat → Prop} (h : Token.InOrder tokens)
    (hs : ∀ t ∈ tokens, offset ≤ t.span.start) (he : ∀ t ∈ tokens, t.span.stop ≤ offset + text.length)
    (hstart : P offset) (hstop : P (offset + text.length))
    (htokens : ∀ t ∈ tokens, P t.span.start ∧ P t.span.stop) :
    ∀ t ∈ fillGaps offset text tokens, P t.span.start ∧ P t.span.stop := by
  induction tokens generalizing offset text with
  | nil =>
      rw [fillGaps]
      split
      · simp
      · intro t ht
        obtain rfl := List.mem_singleton.mp ht
        exact ⟨hstart, hstop⟩
  | cons t tokens ih =>
      obtain ⟨hne, hapart, h⟩ := Token.inOrder_cons.mp h
      rw [List.forall_mem_cons] at hs he htokens
      have hlen := drop_length (Nat.le_trans hs.1 (Nat.le_of_lt hne)) he.1
      have hrest := ih h hapart (hlen ▸ he.2) htokens.1.2 (hlen ▸ hstop) htokens.2
      rw [fillGaps]
      split
      · exact List.forall_mem_cons.mpr
          ⟨⟨hstart, htokens.1.1⟩, List.forall_mem_cons.mpr ⟨htokens.1, hrest⟩⟩
      · exact List.forall_mem_cons.mpr ⟨htokens.1, hrest⟩

theorem withPlain_breaksAt (rules : List Rule) (source : Text) :
    ∀ t ∈ (ofRules rules source).withPlain,
      BreaksAt none source t.span.start ∧ BreaksAt none source t.span.stop := by
  have hend : BreaksAt none source (0 + source.length) := by
    rw [Nat.zero_add]
    exact breaksAt_length none source
  apply fillGaps_ends (tokens_inOrder rules source) (fun _ _ => Nat.zero_le _) _ (.inl rfl) hend
    fun t ht => tokens_breaksAt ht
  intro t ht
  rw [Nat.zero_add]
  exact (isPart_of_mem ht).2.1

theorem mem_candidates_source {segment : Segment} (hp : r.pattern.TakesWords) (hg : r.group = 0)
    (hs : segment ∈ ForeignBlock.segmentsFrom source 0 (ForeignBlock.find source)) :
    t ∈ r.candidates segment ↔
      (t.span.IsWord source ∧ segment.start ≤ t.span.start ∧ t.span.stop ≤ segment.stop) ∧
      r.pattern.Accepts (source.take t.span.start).getLast? (t.span.slice source) ∧
      t = ⟨r.category, t.span, t.span.slice source⟩ := by
  have hplaced := ForeignBlock.placed_find source
  have hat := hplaced.segment_isAt (Nat.zero_le _) hs
  have hword {w : Span} := hat.isWord_iff (w := w) (ForeignBlock.segment_breaksAt hs)
  rw [Rule.mem_candidates_words hp hg, hplaced.segment_before (Nat.zero_le _) hs]
  constructor
  · rintro ⟨pre, word, rest, htext, hne, hall, hb, hr, haccepts, rfl⟩
    refine ⟨hword.mpr ⟨pre, word, rest, htext, rfl, hne, hall, hb, hr⟩, ?_⟩
    rw [htext] at hat
    rw [hat.slice_middle, hat.getLast?_take]
    exact ⟨haccepts, rfl⟩
  · obtain ⟨c, w, text⟩ := t
    rintro ⟨hw, haccepts, ht⟩
    obtain ⟨pre, word, rest, htext, rfl, hne, hall, hb, hr⟩ := hword.mp hw
    rw [htext] at hat
    rw [hat.slice_middle] at haccepts ht
    rw [hat.getLast?_take] at haccepts
    exact ⟨pre, word, rest, htext, hne, hall, hb, hr, haccepts, ht⟩

/-- A rule for words proposes the words outside of foreign blocks that its pattern accepts. -/
theorem mem_proposals_words (hp : r.pattern.TakesWords) (hg : r.group = 0) :
    t ∈ proposals source r ↔ t.span.IsWord source ∧
      (∀ b ∈ ForeignBlock.find source, ¬ t.span.Overlaps b.region) ∧
      r.pattern.Accepts (source.take t.span.start).getLast? (t.span.slice source) ∧
      t = ⟨r.category, t.span, t.span.slice source⟩ := by
  constructor
  · intro h
    have houtside := fun b hb => proposal_outside (b := b) h hb
    rw [proposals_eq, List.mem_flatMap] at h
    obtain ⟨segment, hs, ht⟩ := h
    obtain ⟨⟨hword, -⟩, ht⟩ := (mem_candidates_source hp hg hs).mp ht
    exact ⟨hword, houtside, ht⟩
  · rintro ⟨hword, houtside, ht⟩
    obtain ⟨segment, hs, hstart, hstop⟩ := (ForeignBlock.placed_find source).exists_segment
      (Nat.zero_le _) hword.start_lt hword.stop_le houtside
    rw [proposals_eq, List.mem_flatMap]
    exact ⟨segment, hs, (mem_candidates_source hp hg hs).mpr ⟨⟨hword, hstart, hstop⟩, ht⟩⟩

theorem operator_apart (hr : r.pattern = .operator) (ht : t ∈ proposals source r)
    (hs : s.IsWord source) : ¬ s.Overlaps t.span := by
  intro ho
  obtain ⟨hlow, hhigh⟩ := hs.within (proposals_breaksAt ht).1 (proposals_breaksAt ht).2 ho
  have hne : s.slice source ≠ [] := by
    apply List.ne_nil_of_length_pos
    rw [Span.slice, length_between hs.stop_le]
    exact Nat.sub_pos_of_lt hs.start_lt
  obtain ⟨d, hd⟩ := List.exists_mem_of_ne_nil _ hne
  have hword := hs.all d hd
  obtain ⟨i, hi, hi', hsource⟩ := mem_between_iff.mp hd
  have hm : d ∈ t.text := by
    rw [(mem_proposals ht).2.1.2.2]
    exact mem_between_iff.mpr
      ⟨i, Nat.le_trans hlow hi, Nat.lt_of_lt_of_le hi' hhigh, hsource⟩
  have hsign {c : Char} (hc : isWord c = false) : d ≠ c := by
    rintro rfl
    exact absurd hword (by simp [hc])
  rw [proposals] at ht
  obtain ⟨segment, -, ht⟩ := List.mem_flatMap.mp ht
  have hsep : r.pattern.Separates d := by
    rw [hr]
    exact ⟨hsign rfl, hsign rfl, hsign rfl⟩
  exact Rule.not_mem_text hsep (by simp [hr]) ht hm

theorem exists_overlapping (hr : r ∈ rules) (ht : t ∈ proposals source r) :
    ∃ k ∈ (ofRules rules source).tokens, t.span.Overlaps k.span := by
  obtain ⟨earlier, later, rfl⟩ := List.append_of_mem hr
  have hkept := tokens_inOrder earlier source
  have hproposals := proposals_inOrder source r
  rw [tokens_append, List.flatMap_cons, Token.claimAll_append]
  have hlater := (Token.sublist_claimAll (later.flatMap (proposals source))
    (Token.claimAll (proposals source r) (ofRules earlier source).tokens)).subset
  by_cases hfree : ∀ k ∈ (ofRules earlier source).tokens, ¬ t.span.Overlaps k.span
  · have hne := hproposals.1 t ht
    refine ⟨t, hlater ((Token.mem_claimAll hproposals hkept).mpr (.inr ⟨ht, hfree⟩)), ?_⟩
    exact Span.overlaps_iff.mpr ⟨hne, hne, hne, hne⟩
  · simp only [not_forall, not_not] at hfree
    obtain ⟨k, hk, ho⟩ := hfree
    exact ⟨k, hlater ((Token.sublist_claimAll _ _).subset hk), ho⟩

end Classification

end PioSyntax

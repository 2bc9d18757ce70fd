import PioSyntax.Proofs.Classification.Tokens
import PioSyntax.Proofs.ForeignBlock.LineBreak

namespace PioSyntax.Classification

open Text Pattern

variable {rules : List Rule} {r : Rule} {s t source : Text} {u : Token} {segment : Segment}
variable {f : Found}

theorem blockTokens_append (hb : ∀ b ∈ ForeignBlock.find s, b.terminated = true) :
    blockTokens (s ++ '\n' :: t) =
      blockTokens s ++ (blockTokens t).map (Token.shift (s.length + 1)) := by
  have hsource : s ++ '\n' :: t = (s ++ ['\n']) ++ t := by simp
  have hlen : s.length + 1 = (s ++ ['\n']).length := by simp
  rw [blockTokens, ForeignBlock.find_append hb, List.flatMap_append,
    (ForeignBlock.placed_find s).tokens_append (Nat.le_refl _), List.flatMap_map, hsource, hlen]
  simp only [ForeignBlock.tokens_shift, blockTokens, List.map_flatMap]

theorem proposals_append (hb : ∀ b ∈ ForeignBlock.find s, b.terminated = true)
    (hp : r.pattern.Separates '\n')
    (hc : ∀ segment ∈ ForeignBlock.segmentsFrom s 0 (ForeignBlock.find s),
      segment.stop = s.length → ∀ f ∈ Pattern.comment.find segment, IsClosed f.text) :
    proposals (s ++ '\n' :: t) r =
      proposals s r ++ (proposals t r).map (Token.shift (s.length + 1)) := by
  rw [proposals_eq, proposals_eq, proposals_eq, ForeignBlock.find_append hb]
  exact (ForeignBlock.placed_find s).candidates_append (Nat.zero_le _) hb hp fun hr => hr ▸ hc

theorem before_of_isPart (h : u.IsPart s) : u.Before (s.length + 1) :=
  ⟨h.1, Nat.le_succ_of_le h.2.1⟩

/-- Rules that look at single lines see the same in two texts as in both with a line feed between
them. -/
theorem tokens_ofRules_append (hb : ∀ b ∈ ForeignBlock.find s, b.terminated = true)
    (hp : ∀ r ∈ rules, r.pattern.Separates '\n')
    (hc : ∀ segment ∈ ForeignBlock.segmentsFrom s 0 (ForeignBlock.find s),
      segment.stop = s.length → ∀ f ∈ Pattern.comment.find segment, IsClosed f.text) :
    (ofRules rules (s ++ '\n' :: t)).tokens =
      (ofRules rules s).tokens ++ (ofRules rules t).tokens.map (Token.shift (s.length + 1)) := by
  have hproposals : rules.flatMap (proposals (s ++ '\n' :: t)) =
      rules.flatMap fun r => proposals s r ++ (proposals t r).map (Token.shift (s.length + 1)) :=
    List.flatMap_congr fun r hr => proposals_append hb (hp r hr) hc
  rw [tokens_ofRules, tokens_ofRules, tokens_ofRules, hproposals, blockTokens_append hb,
    Token.claimAll_flatMap_append (n := s.length + 1), ← Token.claimAll_shift, List.map_flatMap]
  · exact fun r _ u hu => before_of_isPart (mem_proposals hu).2.1
  · exact fun r _ => Token.shift_after (proposals_inOrder t r).1
  · exact fun u hu => before_of_isPart (mem_blockTokens hu).1
  · exact Token.shift_after (blockTokens_inOrder t).1

/-- The first rule keeps all that it proposes. -/
theorem mem_tokens_of_mem_proposals (h : u ∈ proposals source r) :
    u ∈ (ofRules (r :: rules) source).tokens := by
  rw [tokens_ofRules, List.flatMap_cons, Token.claimAll_append]
  apply (Token.sublist_claimAll _ _).subset
  rw [Token.mem_claimAll (proposals_inOrder source r) (blockTokens_inOrder source)]
  exact .inr ⟨h, fun k hk => proposal_apart h hk⟩

/-- A comment that is never closed runs to the end of its segment. -/
theorem open_comment_mem (hs : segment ∈ ForeignBlock.segmentsFrom s 0 (ForeignBlock.find s))
    (hf : f ∈ Pattern.comment.find segment) {body : Text} (htext : f.text = '/' :: '*' :: body)
    (hopen : ¬ ['*', '/'] <:+: body) :
    ⟨.comment, ⟨f.start, segment.stop⟩, f.text⟩ ∈ (classify s).tokens := by
  obtain ⟨pre, hpre, hstart, hr⟩ := mem_find hf
  have hsize : f.hit.size = f.text.length := by
    rw [htext] at hr ⊢
    rw [← Option.some.inj hr]
    simp only [blockLength_open hopen, List.length_cons]
    omega
  have hstop : segment.stop = f.start + f.text.length := by
    rw [Segment.stop, hpre, hstart, List.length_append, Nat.add_assoc]
  refine mem_tokens_of_mem_proposals (List.mem_flatMap.mpr ⟨segment, ?_, ?_⟩)
  · refine List.mem_filter.mpr ⟨hs, ?_⟩
    simp [hpre, htext]
  · refine List.mem_filterMap.mpr ⟨f, hf, Rule.token?_eq_some.mpr ⟨⟨0, f.hit.size⟩, rfl, ?_, ?_⟩⟩
    · simp [hsize, htext]
    · simp [Span.shift, Span.slice, between, hsize, hstop]

theorem isClosed_of_tokens
    (hc : ∀ u ∈ (classify s).tokens, u.category = .comment → u.span.stop = s.length →
      ['/', '*'] <+: u.text → 4 ≤ u.text.length ∧ ['*', '/'] <:+ u.text)
    (hs : segment ∈ ForeignBlock.segmentsFrom s 0 (ForeignBlock.find s))
    (hstop : segment.stop = s.length) (hf : f ∈ Pattern.comment.find segment) :
    IsClosed f.text := by
  intro body htext
  rcases exists_block body with ⟨inner, rest, rfl, -⟩ | hopen
  · exact ⟨inner, rest, by simp⟩
  · have hu := open_comment_mem hs hf htext hopen
    obtain ⟨hlen, hsuffix⟩ := hc _ hu rfl hstop (by rw [htext]; exact ⟨body, rfl⟩)
    simp only [htext, List.suffix_cons_iff] at hsuffix hlen
    rcases hsuffix with h | h | h
    · cases h
    · simp [← h] at hlen
    · exact h.isInfix

theorem defaultRules_separates : ∀ r ∈ defaultRules, r.pattern.Separates '\n' := by
  decide

/-- A text is classified line by line: what follows a line feed is classified as if it stood alone,
unless a block or a comment is open there. -/
theorem classify_append (hb : ∀ b ∈ ForeignBlock.find s, b.terminated = true)
    (hc : ∀ u ∈ (classify s).tokens, u.category = .comment → u.span.stop = s.length →
      ['/', '*'] <+: u.text → 4 ≤ u.text.length ∧ ['*', '/'] <:+ u.text) (t : Text) :
    (classify (s ++ '\n' :: t)).tokens =
      (classify s).tokens ++ (classify t).tokens.map (Token.shift (s.length + 1)) ∧
    (classify (s ++ '\n' :: t)).blocks =
      (classify s).blocks ++ (classify t).blocks.map (ForeignBlock.shift (s.length + 1)) :=
  ⟨tokens_ofRules_append hb defaultRules_separates fun _ hs hstop _ hf =>
    isClosed_of_tokens hc hs hstop hf, ForeignBlock.find_append hb⟩

theorem classify_append_closed :
    (classify ("% c \x7b\n%\x7d\n/**/".toList ++ '\n' :: "jmp x".toList)).tokens =
      (classify "% c \x7b\n%\x7d\n/**/").tokens ++ (classify "jmp x").tokens.map (Token.shift 14) :=
  (classify_append (by decide) (by decide) "jmp x").1

end PioSyntax.Classification

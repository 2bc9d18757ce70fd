import PioSyntax.Proofs.Classification.Priority
import PioSyntax.Proofs.ForeignBlock.Outside
import PioSyntax.Proofs.Rule.BlockComment

namespace PioSyntax.Classification

open Text Pattern ForeignBlock

def IsInner (text : Text) : Prop := '\n' ∉ text ∧ '\r' ∉ text ∧ ¬ ['*', '/'] <:+: text

instance (text : Text) : Decidable (IsInner text) := inferInstanceAs (Decidable (_ ∧ _))

def commentToken (u inner : Text) : Token :=
  ⟨.comment, ⟨u.length, (u ++ blockComment inner).length⟩, blockComment inner⟩

def commentRule : Rule := ⟨.comment, .comment, 0⟩

def laterRules : List Rule := defaultRules.tail

variable {r : Rule} {u v c inner source : Text} {t : Token}
variable {ls : List Text} {blocks : List ForeignBlock}

theorem defaultRules_eq : defaultRules = commentRule :: laterRules := rfl

theorem laterRules_separates : ∀ r ∈ laterRules,
    r.pattern.Separates '/' ∨ r.pattern = .arrayIndex ∧ r.group = 1 := by
  decide

theorem blockComment_line (h : IsInner inner) :
    '\n' ∉ blockComment inner ∧ '/' ∈ blockComment inner := by
  simp [blockComment, h.1]

/-- Only the rule for array indexes takes brackets, and it is alone. -/
theorem exists_arrayIndex : ∃ earlier r later, laterRules = earlier ++ r :: later ∧
    (∀ q ∈ earlier, q.pattern ≠ .arrayIndex) ∧ r.pattern = .arrayIndex ∧ r.group = 1 ∧
    ∀ q ∈ later, (q.pattern ≠ .arrayIndex ∧ q.pattern ≠ .comment) ∧
      ∀ d, d = '[' ∨ inBrackets d = false → q.pattern.Separates d := by
  refine ⟨laterRules.take 2, ⟨.arrayIndex, .arrayIndex, 1⟩, laterRules.drop 3, rfl, by decide, rfl,
    rfl, ?_⟩
  have hseparates : ∀ q ∈ laterRules.drop 3, (q.pattern ≠ .arrayIndex ∧ q.pattern ≠ .comment) ∧
      q.pattern.Separates '[' ∧ q.pattern.Separates ']' ∧ q.pattern.Separates '\n' ∧
      q.pattern.Separates '\r' := by
    decide
  intro q hq
  obtain ⟨hne, hopening, hclosing, hnewline, hreturn⟩ := hseparates q hq
  refine ⟨hne, fun d hd => ?_⟩
  rw [inBrackets_eq_false] at hd
  rcases hd with rfl | rfl | rfl | rfl
  · exact hopening
  · exact hclosing
  · exact hnewline
  · exact hreturn

theorem commentToken_bounds : (commentToken u inner).After u.length ∧
    (commentToken u inner).Before (u ++ blockComment inner).length := by
  simp only [Token.After, Token.Before, commentToken, List.length_append, length_blockComment]
  omega

/-- Where a rule proposes something, there is no foreign body. -/
theorem not_covered {b : ForeignBlock} (ht : t ∈ proposals source r) (hb : b ∈ find source)
    (h : b.body.start ≤ t.span.start) : b.body.stop ≤ t.span.start := by
  by_cases hlt : t.span.start < b.body.stop
  · have hne := (mem_proposals ht).2.1.1
    have hbody : (⟨.foreignBlock, b.body, b.body.slice source⟩ : Token) ∈ blockTokens source := by
      refine List.mem_flatMap.mpr ⟨b, hb, ?_⟩
      rw [tokens_eq]
      exact List.mem_append_right _ (List.mem_append_left _ (mem_spanToken.mpr ⟨by omega, rfl⟩))
    apply absurd _ (proposal_apart ht hbody)
    rw [Span.overlaps_iff]
    simp only
    omega
  · exact Nat.le_of_not_lt hlt

/-- No block is open where a comment begins. -/
theorem exists_reads_of_comment (hi : IsInner inner)
    (ht : t ∈ proposals (u ++ blockComment inner ++ v) r) (hs : t.span.start = u.length) :
    ∃ ls blocks, (∀ line ∈ ls, '\n' ∉ line) ∧ u = unlines ls ++ lastLine u ∧
      Reads .outside 0 ls blocks .outside := by
  obtain ⟨ls, hls, hu⟩ := exists_unlines u
  obtain ⟨blocks, last, hr⟩ := exists_reads .outside 0 ls
  cases last with
  | outside => exact ⟨ls, blocks, hls, hu, hr⟩
  | inside language head start =>
      -- the line closes no block, so the comment would be in the body of that block
      obtain ⟨hnewline, hslash⟩ := blockComment_line hi
      have hline : '\n' ∉ lastLine u ++ blockComment inner ++ v.takeWhile (· != '\n') := by
        simp [not_mem_lastLine, hnewline, not_mem_firstLine]
      have hclose : ∀ marker, ¬ ClosingLine
          (lastLine u ++ blockComment inner ++ v.takeWhile (· != '\n')) marker := by
        intro marker hc
        exact hc.not_mem (by decide) (List.mem_append_left _ (List.mem_append_right _ hslash))
      have hsource : u ++ blockComment inner ++ v = unlines ls ++
          (lastLine u ++ blockComment inner ++ v.takeWhile (· != '\n') ++
            v.dropWhile (· != '\n')) := by
        conv_lhs => rw [hu, ← List.takeWhile_append_dropWhile (p := (· != '\n')) (l := v)]
        simp only [List.append_assoc]
      obtain ⟨b, hb, hstart, hstop⟩ := hr.exists_covering hls hline hclose (firstLine_ends v)
      rw [← hsource] at hb
      have hlen := congrArg List.length hu
      have hle := not_covered ht hb (by rw [List.length_append] at hlen; omega)
      simp only [List.length_append, length_blockComment] at hlen hstop
      omega

/-- What there is around a stretch between `u` and `v` on a line that opens no block: segments before
it, one that it is in, segments after it, and the tokens of the blocks on both sides. -/
structure Surroundings (u v : Text) where
  first : List Segment
  resume : Nat
  char : Option Char
  upper : Text
  lower : Text
  rest : List Segment
  kept : List Token
  later : List Token
  first_stop : ∀ segment ∈ first, segment.stop ≤ resume
  length_upper : resume + upper.length = u.length
  lastLine_upper : lastLine upper = lastLine u
  lower_prefix : lower <+: v
  rest_start : ∀ segment ∈ rest, (v.takeWhile (· != '\n')).length < segment.start
  kept_before : ∀ t ∈ kept, t.Before u.length
  later_inOrder : Token.InOrder later
  segments_eq : ∀ M, '\n' ∉ M → '/' ∈ M →
    segmentsFrom (u ++ M ++ v) 0 (find (u ++ M ++ v)) =
      first ++ ⟨resume, char, upper ++ (M ++ lower)⟩ :: rest.map (Segment.shift (u ++ M).length)
  blockTokens_eq : ∀ M, '\n' ∉ M → '/' ∈ M →
    blockTokens (u ++ M ++ v) = kept ++ later.map (Token.shift (u ++ M).length)

theorem nonempty_surroundings (hls : ∀ line ∈ ls, '\n' ∉ line) (hu : u = unlines ls ++ lastLine u)
    (h : Reads .outside 0 ls blocks .outside) (v : Text) : Nonempty (Surroundings u v) := by
  have hl := not_mem_lastLine u
  obtain ⟨first, rest, resume, char, upper, lower, hlower, hlast, hlen, hfirst, hrest, hsegments⟩ :=
    h.exists_segments_beside hls hl v
  have hplaced := placed_find (unlines ls)
  rw [h.find_unlines hls] at hplaced
  rw [← hu] at hlen hsegments
  refine ⟨first, resume, char, upper, lower, rest, blocks.flatMap (·.tokens (unlines ls)),
    (blocksAfterLine v).flatMap (·.tokens v), hfirst, hlen, hlast, hlower, hrest, ?_, ?_,
    hsegments, ?_⟩
  · intro t ht
    have hle := congrArg List.length hu
    rw [List.length_append] at hle
    have hstop := (hplaced.token_bounds ht).2
    exact ⟨hplaced.tokens_inOrder.1 t ht, by omega⟩
  · exact (placed_blocksAfterLine v).tokens_inOrder
  · intro M hM hs
    have hblocks := h.blockTokens_beside (t := v) hls hl hM hs
    rwa [← hu] at hblocks

namespace Surroundings

variable (S : Surroundings u v)

theorem proposals_eq (hi : IsInner inner) (r : Rule) :
    proposals (u ++ blockComment inner ++ v) r = S.first.flatMap r.candidates ++
      (r.candidates ⟨S.resume, S.char, S.upper ++ (blockComment inner ++ S.lower)⟩ ++
        (S.rest.flatMap r.candidates).map (Token.shift (u ++ blockComment inner).length)) := by
  obtain ⟨hnewline, hslash⟩ := blockComment_line hi
  rw [Classification.proposals_eq, S.segments_eq _ hnewline hslash, List.flatMap_append,
    List.flatMap_cons, List.flatMap_map, List.map_flatMap]
  simp only [Rule.candidates_segment_shift]

theorem mem_candidates (hi : IsInner inner) (ht : t ∈ proposals (u ++ blockComment inner ++ v) r)
    (hs : t.span.start = u.length) :
    t ∈ r.candidates ⟨S.resume, S.char, S.upper ++ (blockComment inner ++ S.lower)⟩ := by
  have hlen := S.length_upper
  rw [S.proposals_eq hi, List.mem_append, List.mem_append] at ht
  rcases ht with ht | ht | ht
  · obtain ⟨segment, hsegment, ht⟩ := List.mem_flatMap.mp ht
    obtain ⟨-, -, hne, hstop, -⟩ := Rule.mem_candidates ht
    have hfirst := S.first_stop segment hsegment
    rw [Segment.stop] at hfirst
    omega
  · exact ht
  · obtain ⟨u', -, rfl⟩ := List.mem_map.mp ht
    simp only [Token.shift, Span.shift, List.length_append, length_blockComment] at hs
    omega

def proposalsBefore (r : Rule) : List Token :=
  S.first.flatMap r.candidates ++ r.candidates ⟨S.resume, S.char, S.upper⟩

/-- What a rule proposes after the stretch, with offsets from its end. -/
def proposalsAfter (inner : Text) (r : Rule) : List Token :=
  r.candidatesAfter (u ++ blockComment inner) S.lower ++ S.rest.flatMap r.candidates

theorem exists_proposals_around (hi : IsInner inner)
    (hr : r.pattern.Separates '/' ∨ r.pattern = .arrayIndex ∧ r.group = 1) :
    ∃ middle : List Token, (∀ t ∈ middle, t.span.Overlaps (commentToken u inner).span) ∧
      proposals (u ++ blockComment inner ++ v) r = S.proposalsBefore r ++ (middle ++
        (S.proposalsAfter inner r).map (Token.shift (u ++ blockComment inner).length)) := by
  have hopen : IsOpen (S.upper ++ blockComment inner) ↔ IsOpen (u ++ blockComment inner) :=
    isOpen_congr S.lastLine_upper
  obtain ⟨middle, hm, he⟩ :=
    Rule.exists_candidates_around S.resume S.char S.upper inner S.lower hr
  rw [S.length_upper, Rule.candidatesAfter_of_isOpen hopen, ← List.length_append] at he
  rw [S.length_upper, ← List.length_append] at hm
  refine ⟨middle, hm, ?_⟩
  rw [S.proposals_eq hi, he, proposalsBefore, proposalsAfter, List.map_append]
  simp only [List.append_assoc]

theorem first_before (ht : t ∈ S.first.flatMap r.candidates) : t.Before u.length := by
  refine candidates_before (fun segment hs => ?_) ht
  have hfirst := S.first_stop segment hs
  have hlen := S.length_upper
  omega

theorem proposalsBefore_before (ht : t ∈ S.proposalsBefore r) : t.Before u.length := by
  rcases List.mem_append.mp ht with ht | ht
  · exact S.first_before ht
  · obtain ⟨-, -, hne, hstop, -⟩ := Rule.mem_candidates ht
    exact ⟨hne, Nat.le_trans hstop (Nat.le_of_eq S.length_upper)⟩

theorem proposalsAfter_inOrder (hi : IsInner inner)
    (hr : r.pattern.Separates '/' ∨ r.pattern = .arrayIndex ∧ r.group = 1) :
    Token.InOrder (S.proposalsAfter inner r) := by
  obtain ⟨middle, -, he⟩ := S.exists_proposals_around hi hr
  have horder := proposals_inOrder (u ++ blockComment inner ++ v) r
  rw [he, Token.inOrder_append, Token.inOrder_append, Token.inOrder_shift] at horder
  exact horder.2.1.2.1

theorem proposalsAfter_congr {inner' : Text} (hg : r.pattern = .arrayIndex → r.group = 1)
    (h : Reaches (u ++ blockComment inner) v ↔ Reaches (u ++ blockComment inner') v) :
    S.proposalsAfter inner r = S.proposalsAfter inner' r := by
  rw [proposalsAfter, Rule.candidatesAfter_congr hg S.lower_prefix h, proposalsAfter]

theorem proposalsAfter_of_ne {inner' : Text} (hr : r.pattern ≠ .arrayIndex) :
    S.proposalsAfter inner r = S.proposalsAfter inner' r := by
  rw [proposalsAfter, Rule.candidatesAfter_of_ne hr, ← Rule.candidatesAfter_of_ne hr,
    proposalsAfter]

theorem proposalsAfter_agree {inner' : Text} (hp : r.pattern = .arrayIndex) (hg : r.group = 1) :
    Token.AgreeOutside (firstBrackets v) (S.proposalsAfter inner r)
      (S.proposalsAfter inner' r) := by
  intro t ht
  rw [proposalsAfter, proposalsAfter, List.mem_append, List.mem_append,
    Rule.candidatesAfter_agree hp hg S.lower_prefix t ht]

theorem within_or_apart (hr : r.pattern ≠ .arrayIndex ∧ r.pattern ≠ .comment)
    (hd : ∀ d, d = '[' ∨ inBrackets d = false → r.pattern.Separates d)
    (ht : t ∈ S.proposalsAfter inner r) :
    t.Within (firstBrackets v) ∨ ¬ t.span.Overlaps (firstBrackets v) := by
  rw [proposalsAfter, Rule.candidatesAfter_of_ne hr.1, List.mem_append] at ht
  rcases ht with ht | ht
  · exact Rule.within_or_apart S.lower_prefix ht fun d h => Rule.not_mem_text (hd d h) hr.2 ht
  · have hafter := (candidates_after S.rest_start ht).1
    have hstop := firstBrackets_stop_le v
    rw [Span.overlaps_iff]
    omega

end Surroundings

theorem Surroundings.exists_comments (S : Surroundings u v) (hi : IsInner inner)
    (ht : t ∈ proposals (u ++ blockComment inner ++ v) commentRule)
    (hs : t.span.start = u.length) :
    ∃ left right : List Token, (∀ t ∈ left, t.Before u.length) ∧ Token.InOrder right ∧
      ∀ inner, IsInner inner →
        Token.claimAll (proposals (u ++ blockComment inner ++ v) commentRule)
            (blockTokens (u ++ blockComment inner ++ v)) =
          left ++ ([commentToken u inner] ++
            right.map (Token.shift (u ++ blockComment inner).length)) := by
  have hlen := S.length_upper
  obtain ⟨found, hfound⟩ := Rule.exists_candidates_comment rfl rfl (S.mem_candidates hi ht hs)
    (hs.trans hlen.symm)
  rw [hlen] at hfound
  have hbefore : ∀ t ∈ S.first.flatMap commentRule.candidates ++ found, t.Before u.length := by
    intro t ht
    rcases List.mem_append.mp ht with ht | ht
    · exact S.first_before ht
    · have horder := Rule.candidates_inOrder commentRule
        ⟨S.resume, S.char, S.upper ++ (blockComment inner ++ S.lower)⟩
      rw [hfound inner S.lower hi.2.2, Token.inOrder_append] at horder
      exact ⟨horder.1.1 t ht, horder.2.2 t ht _ List.mem_cons_self⟩
  have hright : ∀ t ∈ commentRule.candidates ⟨0, some '/', S.lower⟩ ++
      S.rest.flatMap commentRule.candidates, t.span.start < t.span.stop := by
    intro t ht
    rcases List.mem_append.mp ht with ht | ht
    · exact (Rule.mem_candidates ht).2.2.1
    · exact (candidates_after (fun _ _ => Nat.zero_le _) ht).2
  refine ⟨_, _, fun t ht => (Token.mem_or_mem_of_mem_claimAll ht).elim (S.kept_before t) (hbefore t),
    S.later_inOrder.claimAll hright, fun inner hi => ?_⟩
  obtain ⟨hnewline, hslash⟩ := blockComment_line hi
  have hend : u.length + (blockComment inner).length = (u ++ blockComment inner).length + 0 :=
    List.length_append.symm
  have hproposals : proposals (u ++ blockComment inner ++ v) commentRule =
      S.first.flatMap commentRule.candidates ++ found ++ commentToken u inner ::
        (commentRule.candidates ⟨0, some '/', S.lower⟩ ++
          S.rest.flatMap commentRule.candidates).map
            (Token.shift (u ++ blockComment inner).length) := by
    rw [S.proposals_eq hi, hfound inner S.lower hi.2.2, hend, Rule.candidates_shift, List.map_append]
    simp only [commentToken, commentRule, Nat.add_zero, List.append_assoc, List.cons_append]
  rw [hproposals, S.blockTokens_eq _ hnewline hslash, ← Token.claimAll_shift]
  exact Token.claimAll_beside hbefore (Token.shift_after hright) S.kept_before
    (Token.shift_after S.later_inOrder.1) commentToken_bounds.1 commentToken_bounds.2

/-- Before the comment the tokens are always the same, and after it they depend on it only by what
the rules propose there. -/
theorem Surroundings.exists_tokens (S : Surroundings u v) (hi : IsInner inner)
    (ht : t ∈ proposals (u ++ blockComment inner ++ v) commentRule)
    (hs : t.span.start = u.length) :
    ∃ left kept : List Token, (∀ t ∈ left, t.Before u.length) ∧ Token.InOrder kept ∧
      ∀ inner, IsInner inner → (classify (u ++ blockComment inner ++ v)).tokens =
        left ++ ([commentToken u inner] ++
          (Token.claimAll (laterRules.flatMap (S.proposalsAfter inner)) kept).map
            (Token.shift (u ++ blockComment inner).length)) := by
  obtain ⟨left, right, hleft, hright, htokens⟩ := S.exists_comments hi ht hs
  have hbefore : ∀ r ∈ laterRules, ∀ t ∈ S.proposalsBefore r, t.Before u.length :=
    fun r _ t ht => S.proposalsBefore_before ht
  refine ⟨Token.claimAll (laterRules.flatMap S.proposalsBefore) left, right, ?_, hright,
    fun inner hi => ?_⟩
  · intro t ht
    rcases Token.mem_or_mem_of_mem_claimAll ht with ht | ht
    · exact hleft t ht
    · obtain ⟨r, hr, ht⟩ := List.mem_flatMap.mp ht
      exact hbefore r hr t ht
  have haround : ∀ r ∈ laterRules, ∃ middle : List Token,
      (∀ t ∈ middle, t.span.Overlaps (commentToken u inner).span) ∧
      proposals (u ++ blockComment inner ++ v) r = S.proposalsBefore r ++ (middle ++
        (S.proposalsAfter inner r).map (Token.shift (u ++ blockComment inner).length)) :=
    fun r hr => S.exists_proposals_around hi (laterRules_separates r hr)
  choose! middle hmiddle hproposals using haround
  -- what the later rules find in the comment meets the token of the comment and is dropped
  have hnew : ∀ r ∈ laterRules, ∀ t ∈ middle r, t.span.start < t.span.stop ∧
      ∃ g ∈ [commentToken u inner], t.span.Overlaps g.span := by
    intro r hr t ht
    have ho := hmiddle r hr t ht
    exact ⟨(Span.overlaps_iff.mp ho).2.2.1, _, List.mem_singleton_self _, ho⟩
  have horder := (blockTokens_inOrder (u ++ blockComment inner ++ v)).claimAll
    (proposals_inOrder (u ++ blockComment inner ++ v) commentRule).1
  rw [htokens inner hi] at horder
  rw [classify, tokens_ofRules, defaultRules_eq, List.flatMap_cons, Token.claimAll_append,
    htokens inner hi, List.flatMap_congr hproposals, ← Token.claimAll_shift, List.map_flatMap]
  refine Token.claimAll_around ?_ hbefore hnew ?_ hleft ?_ (Token.shift_after hright.1) horder
  · rw [List.length_append]
    exact Nat.le_add_right _ _
  · exact fun r hr =>
      Token.shift_after (S.proposalsAfter_inOrder hi (laterRules_separates r hr)).1
  · intro g hg
    rw [List.mem_singleton.mp hg]
    exact commentToken_bounds

/-- Only array indexes in the first brackets after the comment depend on what is in it. -/
theorem Surroundings.tokens_agree (S : Surroundings u v) {inner' : Text} {kept : List Token}
    (hi : IsInner inner) (hi' : IsInner inner') (hk : Token.InOrder kept) :
    Token.AgreeOutside (firstBrackets v)
      (Token.claimAll (laterRules.flatMap (S.proposalsAfter inner)) kept)
      (Token.claimAll (laterRules.flatMap (S.proposalsAfter inner')) kept) := by
  have horder : ∀ r ∈ laterRules, ∀ inner, IsInner inner →
      Token.InOrder (S.proposalsAfter inner r) :=
    fun r hr inner hi => S.proposalsAfter_inOrder hi (laterRules_separates r hr)
  obtain ⟨earlier, r, later, he, hearlier, hp, hg, hlater⟩ := exists_arrayIndex
  have hsame : earlier.flatMap (S.proposalsAfter inner) =
      earlier.flatMap (S.proposalsAfter inner') :=
    List.flatMap_congr fun q hq => S.proposalsAfter_of_ne (hearlier q hq)
  have hsame' : later.flatMap (S.proposalsAfter inner) =
      later.flatMap (S.proposalsAfter inner') :=
    List.flatMap_congr fun q hq => S.proposalsAfter_of_ne (hlater q hq).1.1
  have hlaterRules : ∀ q ∈ laterRules, ∀ t ∈ S.proposalsAfter inner' q,
      t.span.start < t.span.stop := fun q hq => (horder q hq inner' hi').1
  rw [he, List.forall_mem_append, List.forall_mem_cons] at horder hlaterRules
  have hkept : Token.InOrder
      (Token.claimAll (earlier.flatMap (S.proposalsAfter inner')) kept) := by
    refine hk.claimAll fun t ht => ?_
    obtain ⟨q, hq, ht⟩ := List.mem_flatMap.mp ht
    exact hlaterRules.1 q hq t ht
  have hr := horder.2.1 inner hi
  have hr' := horder.2.1 inner' hi'
  simp only [he, List.flatMap_append, List.flatMap_cons, Token.claimAll_append, hsame, hsame']
  -- the rules after that for array indexes do not reach over the edges of the brackets
  refine ((S.proposalsAfter_agree hp hg).claimAll_left hr hr' hkept).claimAll
    (hkept.claimAll hr.1) (hkept.claimAll hr'.1) fun t ht => ?_
  obtain ⟨q, hq, ht⟩ := List.mem_flatMap.mp ht
  exact ⟨hlaterRules.2.2 q hq t ht, S.within_or_apart (hlater q hq).1 (hlater q hq).2 ht⟩

/-- What stands in a block comment has no influence on the code around it, but for one thing: if a
bracket is open where the comment ends and is closed after it, what is in the first brackets after
the comment is no array index. -/
theorem block_comment_opaque (hi : IsInner c)
    (ht : t ∈ (classify (u ++ blockComment c ++ v)).tokens) (hc : t.category = .comment)
    (hs : t.span.start = u.length) :
    ∃ left reached free : List Token, (∀ t ∈ left, t.span.stop ≤ u.length) ∧
      Token.AgreeOutside (firstBrackets v) reached free ∧
      ∀ inner, IsInner inner → (classify (u ++ blockComment inner ++ v)).tokens =
        left ++ ([commentToken u inner] ++
          (if Reaches (u ++ blockComment inner) v then reached else free).map
            (Token.shift (u ++ blockComment inner).length)) := by
  have ht := mem_proposals_of_category (by decide : commentRule ∈ defaultRules) ht hc
  obtain ⟨ls, blocks, hls, hu, hr⟩ := exists_reads_of_comment hi ht hs
  obtain ⟨S⟩ := nonempty_surroundings hls hu hr v
  obtain ⟨left, kept, hleft, hkept, htokens⟩ := S.exists_tokens hi ht hs
  -- one comment stands for all that leave a bracket open, another for all that leave none
  have hopen : IsInner ['['] := by decide
  have hclosed : IsInner [']'] := by decide
  refine ⟨left, Token.claimAll (laterRules.flatMap (S.proposalsAfter ['['])) kept,
    Token.claimAll (laterRules.flatMap (S.proposalsAfter [']'])) kept, fun t ht => (hleft t ht).2,
    S.tokens_agree hopen hclosed hkept, fun inner hi => ?_⟩
  have hgroup : ∀ r ∈ laterRules, r.pattern = .arrayIndex → r.group = 1 := by decide
  have hcongr {inner' : Text}
      (h : Reaches (u ++ blockComment inner) v ↔ Reaches (u ++ blockComment inner') v) :
      laterRules.flatMap (S.proposalsAfter inner) = laterRules.flatMap (S.proposalsAfter inner') :=
    List.flatMap_congr fun r hr => S.proposalsAfter_congr (hgroup r hr) h
  rw [htokens inner hi]
  split
  · next h =>
      have hreached : Reaches (u ++ blockComment ['[']) v :=
        ⟨isOpen_append_iff.mpr (.inl (by decide)), h.2⟩
      rw [hcongr (iff_of_true h hreached)]
  · next h =>
      have hfree : ¬ Reaches (u ++ blockComment [']']) v := fun h =>
        (isOpen_append_iff.mp h.1).elim (by decide) fun h => absurd (h.2 ']' (by decide)) (by decide)
      rw [hcongr (iff_of_false h hfree)]

theorem block_comment_opaque_x : ∃ left reached free : List Token,
    (classify "x/*nop*/ y").tokens =
      left ++ (⟨.comment, ⟨1, 8⟩, "/*nop*/"⟩ :: free.map (Token.shift 8)) ∧
    (classify "x/*[*/ y").tokens =
      left ++ (⟨.comment, ⟨1, 6⟩, "/*[*/"⟩ :: free.map (Token.shift 6)) ∧
    Token.AgreeOutside ⟨3, 2⟩ reached free := by
  have ht : ⟨.comment, ⟨1, 8⟩, "/*nop*/"⟩ ∈
      (classify ("x".toList ++ blockComment "nop".toList ++ " y".toList)).tokens := by
    decide
  obtain ⟨left, reached, free, -, hagree, h⟩ :=
    block_comment_opaque (c := "nop") (by decide) ht rfl rfl
  exact ⟨left, reached, free, h "nop" (by decide), h "[" (by decide), hagree⟩

/-- A bracket in a comment takes the array index after it. -/
theorem block_comment_not_opaque :
    ¬ ∀ (u v inner inner' : Text) (t : Token), IsInner inner → IsInner inner' →
      t ∈ (classify (u ++ blockComment inner ++ v)).tokens → t.category = .comment →
      t.span.start = u.length → ∃ left right : List Token,
        (classify (u ++ blockComment inner ++ v)).tokens = left ++ ([commentToken u inner] ++
          right.map (Token.shift (u ++ blockComment inner).length)) ∧
        (classify (u ++ blockComment inner' ++ v)).tokens = left ++ ([commentToken u inner'] ++
          right.map (Token.shift (u ++ blockComment inner').length)) := by
  intro h
  obtain ⟨left, right, h₁, h₂⟩ := h [] " [x]" "[" [] ⟨.comment, ⟨0, 5⟩, "/*[*/"⟩ (by decide)
    (by decide) (by decide) rfl rfl
  have hsame := congrArg (List.map Token.category) h₁
  have hsame' := congrArg (List.map Token.category) h₂
  simp only [List.map_append, List.map_cons, List.map_nil, List.map_map, Function.comp_def,
    Token.shift, commentToken] at hsame hsame'
  exact absurd (hsame.trans hsame'.symm) (by decide)

end PioSyntax.Classification

import PioSyntax.Proofs.Classification.Tokens
import PioSyntax.Proofs.ForeignBlock.Spelling

namespace PioSyntax

open Text

namespace Spelling

open Classification

variable {R : Spelling} {source : Text} {rename : Text → Text} {rules : List Rule} {r : Rule}
variable {t : Token} {kept proposed : List Token}

theorem claim_token : (R.token source t).claim (kept.map (R.token source)) =
    (t.claim kept).map (R.token source) := by
  induction kept with
  | nil => rfl
  | cons k kept ih =>
      simp only [List.map_cons, Token.claim, token, Spelling.span, move_le_move]
      split
      · rfl
      · split
        · exact congrArg (_ :: ·) ih
        · rfl

theorem claimAll_token : Token.claimAll (proposed.map (R.token source))
    (kept.map (R.token source)) = (Token.claimAll proposed kept).map (R.token source) := by
  induction proposed generalizing kept with
  | nil => rfl
  | cons t proposed ih =>
      rw [List.map_cons, Token.claimAll_cons, claim_token, ih, Token.claimAll_cons]

theorem inOrder_token {tokens : List Token} (h : Token.InOrder tokens) :
    Token.InOrder (tokens.map (R.token source)) := by
  refine ⟨List.forall_mem_map.mpr fun t ht => R.move_strictMono source (h.1 t ht), ?_⟩
  exact List.pairwise_map.mpr (h.2.imp fun htu => R.move_le_move.mpr htu)

theorem KeepsBlocks.blockTokens (h : R.KeepsBlocks source rename) :
    Classification.blockTokens (R.text source) =
      (Classification.blockTokens source).map (R.token source) := by
  rw [Classification.blockTokens, h.find]
  exact tokens_text (ForeignBlock.placed_find source)

theorem KeepsBlocks.proposals (h : R.KeepsBlocks source rename)
    (hr : R.Keeps source r.pattern) :
    Classification.proposals (R.text source) r =
      (Classification.proposals source r).map (R.token source) := by
  have hplaced := ForeignBlock.placed_find source
  have hsegments := segmentsFrom_text R rename hplaced (Nat.zero_le _)
  rw [move_zero] at hsegments
  rw [proposals_eq, proposals_eq, h.find, hsegments, List.flatMap_map, List.map_flatMap]
  apply List.flatMap_congr
  intro s hs
  exact hr.candidates (hplaced.segment_isAt (Nat.zero_le _) hs)

/-- Rules whose patterns are kept find the same tokens in a source whether it is spelled or not. -/
theorem KeepsBlocks.tokens_ofRules (h : R.KeepsBlocks source rename)
    (hr : ∀ r ∈ rules, R.Keeps source r.pattern) :
    (ofRules rules (R.text source)).tokens =
      (ofRules rules source).tokens.map (R.token source) := by
  have hproposals : rules.flatMap (Classification.proposals (R.text source)) =
      (rules.flatMap (Classification.proposals source)).map (R.token source) := by
    rw [List.map_flatMap]
    exact List.flatMap_congr fun r hm => h.proposals (hr r hm)
  rw [Classification.tokens_ofRules, Classification.tokens_ofRules, hproposals, h.blockTokens,
    claimAll_token]

end Spelling

end PioSyntax

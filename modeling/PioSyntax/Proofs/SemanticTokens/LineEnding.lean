import PioSyntax.Proofs.Classification.LineEnding
import PioSyntax.Proofs.Classification.Tiling
import PioSyntax.Proofs.SemanticTokens.Pieces
import PioSyntax.Proofs.Workspace

namespace PioSyntax

open Text

variable {e : Encoding} {source t : Text} {n type line column : Nat} {b : ForeignBlock} {u : Token}

namespace Spelling

theorem count_returns (t : Text) : (returns.text t).count '\n' = t.count '\n' := by
  induction t with
  | nil => rfl
  | cons c t ih =>
      by_cases hc : c = '\n'
      · rw [hc, returns_cons_newline, List.count_cons_of_ne (by decide), List.count_cons_self,
          List.count_cons_self, ih]
      · rw [returns_cons hc, List.count_cons_of_ne hc, List.count_cons_of_ne hc, ih]

theorem lastLine_returns (t : Text) : lastLine (returns.text t) = lastLine t := by
  obtain ⟨s, hs, rfl | ⟨u, rfl⟩⟩ := exists_lastLine t
  · rw [List.nil_append] at hs
    rw [hs, returns_eq_self (not_mem_lastLine t)]
  · rw [hs, List.append_assoc, List.singleton_append, text_append, returns_cons_newline,
      List.append_cons, lastLine_append_newline, returns_eq_self (not_mem_lastLine t),
      lastLine_append_newline]

/-- Neither line nor column of a place depends on how lines end. -/
theorem position_returns (h : n ≤ source.length) :
    ((LineIndex.ofText (returns.text source)).position (returns.move source n)).line =
        ((LineIndex.ofText source).position n).line ∧
      e.column (returns.text source)
          ((LineIndex.ofText (returns.text source)).position (returns.move source n)) =
        e.column source ((LineIndex.ofText source).position n) := by
  have hmove : returns.move source n ≤ (returns.text source).length := by
    rw [← move_length, move_le_move]
    exact h
  rw [Encoding.column_position hmove, Encoding.column_position h, LineIndex.position_eq,
    LineIndex.position_eq, returns.move_of_le h, take_text, count_returns, lastLine_returns]
  exact ⟨rfl, rfl⟩

end Spelling

namespace SemanticToken

theorem trimReturns_append (t : Text) : trimReturns (t ++ ['\r']) = trimReturns t := by
  rw [trimReturns, List.reverse_append, List.reverse_singleton, List.singleton_append,
    List.dropWhile_cons_of_pos rfl, trimReturns]

theorem ofLines_returns (t : Text) : ofLines e type line column (Spelling.returns.text t).lines =
    ofLines e type line column t.lines := by
  induction t using line_induction generalizing line column with
  | last l hl => rw [Spelling.returns_eq_self hl]
  | cons l t hl ih =>
      rw [ForeignBlock.returns_line_eq hl, lines_append, lines_append, lines_eq_singleton hl,
        lines_eq_singleton (ForeignBlock.not_mem_return hl), List.singleton_append,
        List.singleton_append, ofLines, ofLines, trimReturns_append, ih]

theorem ofToken_returns (h : u.IsPart source) :
    ofToken e (Spelling.returns.text source) (.ofText (Spelling.returns.text source))
        (Spelling.returns.token source u) =
      ofToken e source (.ofText source) u := by
  have hstart : u.span.start ≤ source.length := Nat.le_trans (Nat.le_of_lt h.1) h.2.1
  obtain ⟨hline, hcolumn⟩ := Spelling.position_returns (e := e) hstart
  simp only [ofToken, Spelling.token, Spelling.span, hline, hcolumn, ofLines_returns]

end SemanticToken

namespace Diagnostic

theorem ofBlock?_returns (hs : b.head.start ≤ source.length) (he : b.head.stop ≤ source.length) :
    ofBlock? e (Spelling.returns.text source) (.ofText (Spelling.returns.text source))
        (Spelling.returns.block source id b) =
      ofBlock? e source (.ofText source) b := by
  obtain ⟨hline, hcolumn⟩ := Spelling.position_returns (e := e) hs
  obtain ⟨hline', hcolumn'⟩ := Spelling.position_returns (e := e) he
  simp only [ofBlock?, clientPosition, ForeignBlock.terminated, Spelling.block, Spelling.span,
    Option.isSome_map, hline, hcolumn, hline', hcolumn', id]
  rfl

end Diagnostic

namespace Classification

theorem encode_returns (h : '\r' ∉ source) :
    SemanticToken.encode e (classify (Spelling.returns.text source)) =
      SemanticToken.encode e (classify source) := by
  rw [SemanticToken.encode, SemanticToken.encode, SemanticToken.ofClassification,
    SemanticToken.ofClassification, tokens_returns h, List.flatMap_map]
  apply congrArg
  apply List.flatMap_congr
  intro t ht
  exact SemanticToken.ofToken_returns (isPart_of_mem ht)

theorem diagnostics_returns (h : '\r' ∉ source) :
    Diagnostic.ofClassification e (classify (Spelling.returns.text source)) =
      Diagnostic.ofClassification e (classify source) := by
  rw [Diagnostic.ofClassification, Diagnostic.ofClassification, blocks_returns h,
    List.filterMap_map]
  apply List.filterMap_congr
  intro b hb
  obtain ⟨-, hs, he⟩ := (ForeignBlock.placed_find source).head_bounds hb
  exact Diagnostic.ofBlock?_returns (Nat.le_trans (Nat.le_of_lt hs) he) he

/-- How lines end makes no difference. With carriage returns, all tokens and blocks are where they
were, and a client is told the same. -/
theorem classify_withReturns (h : '\r' ∉ source) :
    (classify source.withReturns).tokens =
      (classify source).tokens.map (Token.withReturns source) ∧
    (classify source.withReturns).blocks =
      (classify source).blocks.map (ForeignBlock.withReturns source) ∧
    ∀ e, SemanticToken.encode e (classify source.withReturns) =
        SemanticToken.encode e (classify source) ∧
      Diagnostic.ofClassification e (classify source.withReturns) =
        Diagnostic.ofClassification e (classify source) ∧
      ∀ (w : Workspace) (uri : Text), (w.answer e (.opened uri source.withReturns)).2 =
        (w.answer e (.opened uri source)).2 := by
  refine ⟨?_, ?_, fun e => ⟨encode_returns h, diagnostics_returns h, fun w uri => ?_⟩⟩
  · rw [← Spelling.token_returns]
    exact tokens_returns h
  · rw [← Spelling.block_returns]
    exact blocks_returns h
  · rw [Workspace.answer_opened, Workspace.answer_opened]
    exact congrArg _ (diagnostics_returns h)

theorem classify_withReturns_nop :
    (classify (Text.withReturns "; a\nnop")).tokens =
      [⟨.comment, ⟨0, 3⟩, "; a"⟩, ⟨.instruction, ⟨5, 8⟩, "nop"⟩] := by
  have h : '\r' ∉ "; a\nnop".toList := by decide
  rw [(classify_withReturns h).1]
  decide

end Classification

end PioSyntax

import PioSyntax.Proofs.Classification.LineBreak
import PioSyntax.Proofs.Classification.Spelling
import PioSyntax.Proofs.ForeignBlock.LineEnding

namespace PioSyntax

open Text

def Text.withReturns (text : Text) : Text :=
  text.flatMap fun c => if c = '\n' then ['\r', '\n'] else [c]

def Span.withReturns (source : Text) (s : Span) : Span :=
  ⟨s.start + (source.take s.start).count '\n', s.stop + (source.take s.stop).count '\n'⟩

def Token.withReturns (source : Text) (t : Token) : Token :=
  ⟨t.category, t.span.withReturns source, t.text.withReturns⟩

def ForeignBlock.withReturns (source : Text) (b : ForeignBlock) : ForeignBlock :=
  ⟨b.language, b.head.withReturns source, b.body.withReturns source,
    b.tail.map (Span.withReturns source)⟩

variable {source : Text}

namespace Spelling

theorem move_returns (source : Text) (n : Nat) :
    returns.move source n = n + (source.take n).count '\n' := by
  rw [move, length_returns, List.length_take]
  omega

theorem span_returns (source : Text) : returns.span source = Span.withReturns source := by
  funext s
  rw [span, move_returns, move_returns, Span.withReturns]

theorem token_returns (source : Text) : returns.token source = Token.withReturns source := by
  funext t
  rw [token, span_returns]
  rfl

theorem block_returns (source : Text) : returns.block source id = ForeignBlock.withReturns source := by
  funext b
  rw [block, span_returns]
  rfl

end Spelling

namespace Classification

theorem defaultRules_keep_returns : ∀ r ∈ defaultRules, Spelling.returns.Keeps source r.pattern := by
  have hreturn : ∀ r ∈ defaultRules, r.pattern.Separates '\r' := by decide
  intro r hr
  by_cases hc : r.pattern = .comment
  · rw [hc]
    exact Pattern.comment_keeps_returns
  · exact Pattern.keeps_returns (defaultRules_separates r hr) (hreturn r hr) hc

theorem tokens_returns (h : '\r' ∉ source) : (classify (Spelling.returns.text source)).tokens =
    (classify source).tokens.map (Spelling.returns.token source) :=
  (ForeignBlock.keepsBlocks_returns h).tokens_ofRules defaultRules_keep_returns

theorem blocks_returns (h : '\r' ∉ source) : (classify (Spelling.returns.text source)).blocks =
    (classify source).blocks.map (Spelling.returns.block source id) :=
  (ForeignBlock.keepsBlocks_returns h).find

end Classification

end PioSyntax

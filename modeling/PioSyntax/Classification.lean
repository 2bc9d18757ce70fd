import PioSyntax.ForeignBlock
import PioSyntax.Rule

namespace PioSyntax

def Token.claim (t : Token) : List Token → List Token
  | [] => [t]
  | k :: kept =>
    if t.span.stop ≤ k.span.start then t :: k :: kept
    else if k.span.stop ≤ t.span.start then k :: claim t kept
    else k :: kept

namespace ForeignBlock

def tokens (source : Text) (b : ForeignBlock) : List Token :=
  let token (category : Category) (s : Span) : Option Token :=
    if s.IsEmpty then none else some ⟨category, s, s.slice source⟩
  [ token .foreignBlockDelimiter b.head, token .foreignBlock b.body,
    b.tail.bind (token .foreignBlockDelimiter) ].reduceOption

/-- The segments around blocks, from `start` on: up to each head marker, and on from each tail
marker. After a block that is never closed there is none. -/
def segmentsFrom (source : Text) (start : Nat) : List ForeignBlock → List Segment
  | [] => [.ofSource source start source.length]
  | b :: blocks =>
    .ofSource source start b.head.start ::
      segmentsFrom source (b.tail.elim source.length Span.stop) blocks

def segments (source : Text) (blocks : List ForeignBlock) : List Segment :=
  (segmentsFrom source 0 blocks).filter (·.text ≠ [])

end ForeignBlock

structure Classification where
  source : Text
  tokens : List Token
  blocks : List ForeignBlock

inductive RuleError where
  | noSuchGroup

def RuleError.message : RuleError → Text
  | noSuchGroup => "no such group"

namespace Classification

def candidates (rules : List Rule) (segments : List Segment) : List Token :=
  rules.flatMap fun r => segments.flatMap r.candidates

def ofRules (rules : List Rule) (source : Text) : Classification :=
  let blocks := ForeignBlock.find source
  let proposed := candidates rules (ForeignBlock.segments source blocks)
  ⟨source, proposed.foldl (fun kept t => t.claim kept) (blocks.flatMap (·.tokens source)), blocks⟩

def lacksGroup (rules : List Rule) (segments : List Segment) : Bool :=
  rules.any fun r => !r.hasGroup && segments.any fun s => !(r.pattern.find s).isEmpty

def ofRules? (rules : List Rule) (source : Text) : Except RuleError Classification :=
  if lacksGroup rules (ForeignBlock.segments source (ForeignBlock.find source)) then
    .error .noSuchGroup
  else .ok (ofRules rules source)

/-- Fills the gaps between tokens with plain ones, in a rest of the source at `offset`. -/
def fillGaps (offset : Nat) (text : Text) : List Token → List Token
  | [] => if text = [] then [] else [⟨.plain, ⟨offset, offset + text.length⟩, text⟩]
  | t :: tokens =>
    let rest := t :: fillGaps t.span.stop (text.drop (t.span.stop - offset)) tokens
    if offset < t.span.start then
      ⟨.plain, ⟨offset, t.span.start⟩, text.take (t.span.start - offset)⟩ :: rest
    else rest

def withPlain (c : Classification) : List Token := fillGaps 0 c.source c.tokens

def categoryAt (c : Classification) (offset : Int) : Category :=
  let reached := c.tokens.takeWhile fun t => (t.span.start : Int) ≤ offset
  ((reached.find? fun t => offset < t.span.stop).map (·.category)).getD .plain

def foreignBodies (c : Classification) : List (Text × Span × Text) :=
  c.blocks.map fun b => (b.language, b.body, b.body.slice c.source)

end Classification

def classify (source : Text) : Classification := .ofRules defaultRules source

end PioSyntax

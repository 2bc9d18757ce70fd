import PioSyntax.Classification
import PioSyntax.Position

namespace PioSyntax

inductive Encoding where
  | utf8
  | utf16
  | utf32
deriving DecidableEq

namespace Encoding

def width (e : Encoding) (c : Char) : Nat :=
  match e with
  | utf8 =>
    if c.toNat < 0x80 then 1 else if c.toNat < 0x800 then 2 else if c.toNat < 0x10000 then 3 else 4
  | utf16 => if c.toNat < 0x10000 then 1 else 2
  | utf32 => 1

def units (e : Encoding) : Text → Nat
  | [] => 0
  | c :: cs => e.width c + units e cs

def column (e : Encoding) (source : Text) (p : Position) : Nat :=
  e.units (source.slice (p.offset - p.column + 1) p.offset)

end Encoding

namespace Category

def semanticType? : Category → Option Text
  | directive => some "macro"
  | label => some "function"
  | instruction => some "keyword"
  | jmpCondition => some "enumMember"
  | register => some "variable"
  | modifier => some "modifier"
  | movOperator => some "operator"
  | numericLiteral => some "number"
  | arrayIndex => some "parameter"
  | foreignBlockDelimiter => some "decorator"
  | comment => some "comment"
  | foreignBlock | plain => none

end Category

/-- A reported stretch, which lies on one line. Lines and columns count from zero. -/
structure SemanticToken where
  line : Nat
  column : Nat
  length : Nat
  type : Nat
deriving DecidableEq

namespace SemanticToken

def legend : List Text :=
  [ "comment", "decorator", "enumMember", "function", "keyword", "macro", "modifier", "number",
    "operator", "parameter", "variable" ]

def modifiers : List Text := []

def trimReturns (text : Text) : Text := (text.reverse.dropWhile (· == '\r')).reverse

def ofLines (e : Encoding) (type line column : Nat) : List Text → List SemanticToken
  | [] => []
  | piece :: pieces =>
    let length := e.units (trimReturns piece)
    let rest := ofLines e type (line + 1) 0 pieces
    if length = 0 then rest else ⟨line, column, length, type⟩ :: rest

def ofToken (e : Encoding) (source : Text) (index : LineIndex) (t : Token) : List SemanticToken :=
  match t.category.semanticType? with
  | none => []
  | some type =>
    let start := index.position t.span.start
    ofLines e (legend.idxOf type) (start.line - 1) (e.column source start) t.text.lines

def ofClassification (e : Encoding) (c : Classification) : List SemanticToken :=
  let index := LineIndex.ofText c.source
  c.tokens.flatMap (ofToken e c.source index)

/-- Five numbers for each token. A column is relative to the token before if that is on the same
line. -/
def encodeFrom (line column : Nat) : List SemanticToken → List Int
  | [] => []
  | t :: tokens =>
    let column' : Int := if t.line = line then t.column - column else t.column
    ((t.line : Int) - line) :: column' :: t.length :: t.type :: 0 ::
      encodeFrom t.line t.column tokens

def encode (e : Encoding) (c : Classification) : List Int := encodeFrom 0 0 (ofClassification e c)

end SemanticToken

end PioSyntax

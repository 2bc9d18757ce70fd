import PioSyntax.SemanticTokens

namespace PioSyntax

structure ClientPosition where
  line : Int
  column : Nat
deriving DecidableEq

structure Diagnostic where
  start : ClientPosition
  stop : ClientPosition
  message : Text
  severity : Nat
  source : Text
deriving DecidableEq

namespace Diagnostic

def warning : Nat := 2

def reporter : Text := "piolex"

def clientPosition (e : Encoding) (source : Text) (p : Position) : ClientPosition :=
  ⟨(p.line : Int) - 1, e.column source p⟩

def ofBlock? (e : Encoding) (source : Text) (index : LineIndex) (b : ForeignBlock) :
    Option Diagnostic :=
  if b.terminated then none
  else some {
    start := clientPosition e source (index.position b.head.start)
    stop := clientPosition e source (index.position b.head.stop)
    message := "unterminated '" ++ b.language ++ "' block (missing '%\x7d')"
    severity := warning
    source := reporter }

def ofClassification (e : Encoding) (c : Classification) : List Diagnostic :=
  c.blocks.filterMap (ofBlock? e c.source (LineIndex.ofText c.source))

end Diagnostic

end PioSyntax

import PioSyntax.Classification
import PioSyntax.Position
import PioSyntax.Text.Quoted

namespace PioSyntax.Dump

open Text

def place (p : Position) : Text := ofNat p.line ++ ":" ++ ofInt p.column

def token (index : LineIndex) (t : Token) : Text :=
  place (index.position t.span.start) ++ "-" ++ place (index.position t.span.stop) ++ " " ++
    t.category.name ++ " " ++ quoted t.text ++ "\n"

def block (index : LineIndex) (b : ForeignBlock) : Text :=
  if b.terminated then []
  else place (index.position b.head.start) ++ " unterminated " ++ b.language ++ " block\n"

def render (c : Classification) : Text :=
  let index := LineIndex.ofText c.source
  c.tokens.flatMap (token index) ++ c.blocks.flatMap (block index)

end PioSyntax.Dump

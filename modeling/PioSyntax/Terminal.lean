import PioSyntax.Classification
import PioSyntax.Style.Table

namespace PioSyntax.Terminal

open Text

def styledLine (parameters line : Text) : Text :=
  if line = [] then [] else "\x1b[" ++ parameters ++ "m" ++ line ++ "\x1b[0m"

/-- A token in its style, which is reset at each line break so that no color runs on. -/
def token (styles : StyleTable) (t : Token) : Except ColorError Text := do
  let parameters ← (styles t.category).ansi
  if parameters = [] then return t.text
  return join "\n" (t.text.lines.map (styledLine parameters))

def render (c : Classification) (styles : StyleTable) : Except ColorError Text := do
  return (← c.withPlain.mapM (token styles)).flatten

end PioSyntax.Terminal

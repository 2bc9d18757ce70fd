import PioSyntax.Text

namespace PioSyntax

/-- The components of a path after its leading slashes, of which there are none, one or two. -/
structure Path where
  slashes : Nat
  components : List Text
deriving DecidableEq

namespace Path

/-- Exactly two leading slashes stay two, and three or more become one. -/
def leadingSlashes (text : Text) : Nat :=
  match (text.takeWhile (· == '/')).length with
  | 0 => 0
  | 2 => 2
  | _ => 1

def ofText (text : Text) : Path :=
  ⟨leadingSlashes text, (text.splitOn '/').filter fun part => part ≠ [] && part ≠ ['.']⟩

def toText (p : Path) : Text :=
  if p.slashes = 0 && p.components.isEmpty then "."
  else List.replicate p.slashes '/' ++ Text.join "/" p.components

def name (p : Path) : Text := p.components.getLast?.getD []

def parent (p : Path) : Path := { p with components := p.components.dropLast }

def child (p : Path) (name : Text) : Path := { p with components := p.components ++ [name] }

def suffixOf (name : Text) : Text :=
  let tail := name.reverse.takeWhile (· != '.')
  if tail.isEmpty || name.length ≤ tail.length + 1 then [] else '.' :: tail.reverse

def suffix (p : Path) : Text := suffixOf p.name

def isSource (p : Path) : Bool := p.suffix.map Char.toLower == (".pio" : Text)

end Path

end PioSyntax

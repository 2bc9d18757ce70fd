import PioSyntax.Text.Ranges

namespace PioSyntax.Text

/-- The white space of the style notation and of names: blanks, line and page breaks, the four
information separators, and the spaces of other scripts. -/
def whitespace : Ranges :=
  [ (0x9, 0xD), (0x1C, 0x20), (0x85, 0x85), (0xA0, 0xA0), (0x1680, 0x1680), (0x2000, 0x200A),
    (0x2028, 0x2029), (0x202F, 0x202F), (0x205F, 0x205F), (0x3000, 0x3000) ]

def isWhitespace (c : Char) : Bool := whitespace.contains c.toNat

def trim (text : Text) : Text :=
  ((text.dropWhile isWhitespace).reverse.dropWhile isWhitespace).reverse

def spacedPieces : Text → List Text
  | [] => [[]]
  | c :: cs =>
    if isWhitespace c then [] :: spacedPieces cs
    else
      match spacedPieces cs with
      | [] => [[c]]
      | piece :: pieces => (c :: piece) :: pieces

def words (text : Text) : List Text := (spacedPieces text).filter (· ≠ [])

end PioSyntax.Text

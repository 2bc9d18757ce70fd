import PioSyntax.Text.Digit
import PioSyntax.Text.Quoted
import PioSyntax.Text.Whitespace

namespace PioSyntax

open Text

/-- Foreground color, weight and slant. A color is written `#rrggbb`. -/
structure Style where
  color : Option Text
  bold : Bool
  italic : Bool
deriving DecidableEq

structure ColorError where
  digits : Text
deriving DecidableEq

def ColorError.message (e : ColorError) : Text :=
  "invalid literal for int() with base 16: " ++ quoted e.digits

namespace Style

def plain : Style := ⟨none, false, false⟩

def color? (s : Style) : Option Text := s.color.filter (· ≠ [])

def onlyIf (condition : Bool) (text : Text) : List Text := if condition then [text] else []

def css (s : Style) : Text :=
  let color := s.color?.toList.map (("color: " : Text) ++ ·)
  join "; " (color ++ onlyIf s.bold "font-weight: bold" ++ onlyIf s.italic "font-style: italic")

/-- White space that may stand around the digits of a number. The information separators may
not. -/
def isNumberSpace (c : Char) : Bool := isWhitespace c && !(0x1C ≤ c.toNat && c.toNat < 0x20)

def hexDigits? (digits : Text) : Option Nat :=
  if digits = [] then none
  else digits.foldlM (fun n c => (hexDigit? c).map fun d => 16 * n + d) 0

/-- One of the three numbers of a color, written in at most two characters: hexadecimal digits, with
a sign or with white space around them. -/
def channel? (text : Text) : Option Int :=
  let trimmed := ((text.dropWhile isNumberSpace).reverse.dropWhile isNumberSpace).reverse
  match trimmed with
  | '-' :: digits => (hexDigits? digits).map fun n => -(n : Int)
  | '+' :: digits => (hexDigits? digits).map fun n => (n : Int)
  | digits => (hexDigits? digits).map fun n => (n : Int)

def channel (text : Text) : Except ColorError Int :=
  match channel? text with
  | some n => .ok n
  | none => .error ⟨text⟩

def colorParameter (color : Text) : Except ColorError Text := do
  let red ← channel (color.between 1 3)
  let green ← channel (color.between 3 5)
  let blue ← channel (color.between 5 7)
  return "38;2;" ++ join ";" [ofInt red, ofInt green, ofInt blue]

def ansi (s : Style) : Except ColorError Text := do
  let color ← s.color?.mapM colorParameter
  return join ";" (onlyIf s.bold "1" ++ onlyIf s.italic "3" ++ color.toList)

end Style

end PioSyntax

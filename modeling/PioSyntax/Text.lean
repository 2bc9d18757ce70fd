namespace PioSyntax

abbrev Text := List Char

instance : Coe String Text := ⟨String.toList⟩

namespace Text

def ofNat (n : Nat) : Text := Nat.toDigits 10 n

def ofInt : Int → Text
  | .ofNat n => ofNat n
  | .negSucc n => '-' :: ofNat (n + 1)

def ofHex (width n : Nat) : Text :=
  let digits := Nat.toDigits 16 n
  List.replicate (width - digits.length) '0' ++ digits

def ofNat2 (n : Nat) : Text :=
  if n < 10 then '0' :: ofNat n else ofNat n

def isBlank (c : Char) : Bool := c == ' ' || c == '\t'

def blanks (text : Text) : Nat := (text.takeWhile isBlank).length

def between (text : Text) (start stop : Nat) : Text := (text.drop start).take (stop - start)

/-- An offset into a text of `length` characters: a negative one counts from the end, and one
beyond either end means that end. -/
def clamp (length : Nat) (offset : Int) : Nat :=
  min (if offset < 0 then (offset + length).toNat else offset.toNat) length

def slice (text : Text) (start stop : Int) : Text :=
  text.between (clamp text.length start) (clamp text.length stop)

def splitOn (separator : Char) : Text → List Text
  | [] => [[]]
  | c :: cs =>
    if c = separator then [] :: splitOn separator cs
    else
      match splitOn separator cs with
      | [] => [[c]]
      | piece :: pieces => (c :: piece) :: pieces

def lines (text : Text) : List Text := text.splitOn '\n'

def join (separator : Text) (pieces : List Text) : Text := List.intercalate separator pieces

def cut? (separator : Char) : Text → Option (Text × Text)
  | [] => none
  | c :: cs =>
    if c = separator then some ([], cs)
    else (cut? separator cs).map fun (before, after) => (c :: before, after)

def after? : (start text : Text) → Option Text
  | [], text => some text
  | _ :: _, [] => none
  | a :: start, b :: text => if a = b then after? start text else none

end Text

end PioSyntax

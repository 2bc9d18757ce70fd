import PioSyntax.Number.Double

namespace PioSyntax.Double

open Text

/-- Whether `c * 10 ^ k` is among the reals to which `m * 2 ^ e` is the nearest number. Half the gap
to the next number belongs to it, with the ends if its mantissa is even. -/
def readsBack (m : Nat) (e : Int) (c : Nat) (k : Int) : Bool :=
  let low := if m = fullMantissa && leastExponent < e then 4 * m - 1 else 4 * m - 2
  let high := 4 * m + 2
  let x := c * power 10 k * power 2 (2 - e)
  let unit := power 10 (-k) * power 2 (e - 2)
  if m % 2 = 0 then low * unit ≤ x && x ≤ high * unit else low * unit < x && x < high * unit

def belowPower (m : Nat) (e p : Int) : Bool :=
  m * power 2 e * power 10 (-p) < power 10 p * power 2 (-e)

/-- The number of digits before the decimal point; negative if zeros follow the point. -/
def magnitude (m : Nat) (e : Int) : Int :=
  let guess := ((m.log2 : Int) + e) * 30103 / 100000
  ([guess - 1, guess, guess + 1, guess + 2].find? (belowPower m e)).getD (guess + 3)

/-- Of the multiples of `10 ^ k` on either side of `m * 2 ^ e`, the nearer of those that read
back. -/
def nearest? (m : Nat) (e k : Int) : Option Nat :=
  let n := m * power 2 e * power 10 (-k)
  let d := power 10 k * power 2 (-e)
  let below := n / d
  match readsBack m e below k, readsBack m e (below + 1) k with
  | true, true => some (roundedQuotient n d)
  | true, false => some below
  | false, true => some (below + 1)
  | false, false => none

/-- The fewest decimal digits that read back, with the power of ten of the last one. Seventeen
digits always do. -/
def shortest (m : Nat) (e : Int) : Nat × Int :=
  let p := magnitude m e
  let grid (n : Nat) : Option (Nat × Int) :=
    let k := p - (n + 1)
    (nearest? m e k).map fun c => (c, k)
  ((List.range 17).findSome? grid).getD (0, 0)

def scientific (digits : Text) (exponent : Int) : Text :=
  let fraction : Text := if digits.length ≤ 1 then [] else '.' :: digits.tail
  let sign : Text := if exponent < 0 then "-" else "+"
  digits.take 1 ++ fraction ++ "e" ++ sign ++ ofNat2 exponent.natAbs

def positional (digits : Text) (point : Int) : Text :=
  if point ≤ 0 then "0." ++ List.replicate (-point).toNat '0' ++ digits
  else if digits.length ≤ point then
    digits ++ List.replicate (point.toNat - digits.length) '0' ++ ".0"
  else digits.take point.toNat ++ "." ++ digits.drop point.toNat

def magnitudeText (m : Nat) (e : Int) : Text :=
  if m = 0 then "0.0"
  else
    let (c, k) := shortest m e
    let all := Nat.toDigits 10 c
    let digits := (all.reverse.dropWhile (· == '0')).reverse
    let point := all.length + k
    if -4 < point && point ≤ 16 then positional digits point else scientific digits (point - 1)

def toText : Double → Text
  | finite negative m e => (if negative then "-" else "") ++ magnitudeText m e
  | infinite negative => if negative then "-inf" else "inf"
  | nan => "nan"

end PioSyntax.Double

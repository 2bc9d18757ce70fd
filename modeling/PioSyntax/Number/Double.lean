import PioSyntax.Text

namespace PioSyntax

/-- A finite number is `mantissa * 2 ^ exponent` with a sign. The mantissa has at most 53 bits, and
53 unless the exponent is the least one. -/
inductive Double where
  | finite (negative : Bool) (mantissa : Nat) (exponent : Int)
  | infinite (negative : Bool)
  | nan
deriving DecidableEq

namespace Double

def leastExponent : Int := -1074

def greatestExponent : Int := 971

def zero (negative : Bool) : Double := finite negative 0 leastExponent

/-- The quotient of two numbers, rounded to the nearest number and to the even one of two. -/
def roundedQuotient (n d : Nat) : Nat :=
  let q := n / d
  let r := n % d
  if d < 2 * r || (d = 2 * r && q % 2 = 1) then q + 1 else q

def fullMantissa : Nat := 0x10000000000000

/-- The power with an exponent, where a negative exponent counts as zero. A quotient is scaled by it
above for positive exponents, and below for negative ones. -/
def power (base : Nat) (exponent : Int) : Nat := base.pow exponent.toNat

/-- The exponent at which the quotient of two positive numbers has a mantissa of 53 bits, or the
least exponent if that is greater. -/
def exponentFor (n d : Nat) : Int :=
  let e : Int := n.log2 - d.log2 - 52
  let quotient := n * power 2 (-e) / (d * power 2 e)
  max (if quotient < fullMantissa then e - 1 else e) leastExponent

def ofQuotient (negative : Bool) (n d : Nat) : Double :=
  let e := exponentFor n d
  let m := roundedQuotient (n * power 2 (-e)) (d * power 2 e)
  let (m, e) := if m = 2 * fullMantissa then (fullMantissa, e + 1) else (m, e)
  if greatestExponent < e then infinite negative else finite negative m e

/-- The number nearest to `digits * 10 ^ exponent`. Far beyond the range of finite numbers no power
is computed. -/
def ofDecimal (negative : Bool) (digits : Nat) (exponent : Int) : Double :=
  let size := exponent + (Nat.toDigits 10 digits).length
  if digits = 0 || size < -330 then zero negative
  else if 310 < size then infinite negative
  else ofQuotient negative (digits * power 10 exponent) (power 10 (-exponent))

end Double

end PioSyntax

import PioSyntax.Text

namespace PioSyntax.Text

def number? (digits : Text) : Option Nat :=
  if digits ≠ [] ∧ digits.all Char.isDigit = true then some (Nat.ofDigitChars 10 digits 0)
  else none

variable {n : Nat} {c : Char}

theorem isDigit_of_mem_ofNat (h : c ∈ ofNat n) : c.isDigit = true :=
  Nat.isDigit_of_mem_toDigits (by decide) (by decide) h

theorem not_mem_ofNat (hc : c.isDigit = false) : c ∉ ofNat n := fun h => by
  rw [isDigit_of_mem_ofNat h] at hc
  cases hc

theorem number?_ofNat (n : Nat) : number? (ofNat n) = some n := by
  have hdigits : (ofNat n).all Char.isDigit = true :=
    List.all_eq_true.mpr fun _ h => isDigit_of_mem_ofNat h
  rw [number?, if_pos ⟨Nat.toDigits_ne_nil, hdigits⟩, ofNat, Nat.ofDigitChars_ten_toDigits]

end PioSyntax.Text

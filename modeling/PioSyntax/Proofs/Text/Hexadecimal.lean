import PioSyntax.Style

namespace PioSyntax.Text

variable {g : Char → Char} {c d : Char} {n width : Nat}

theorem toNat_lt_of_isHexDigit (h : isHexDigit d = true) : d.toNat < 0x80 := by
  simp only [isHexDigit, Char.isDigit, Bool.or_eq_true, Bool.and_eq_true, decide_eq_true_eq] at h
  change d.val.toNat < 0x80
  rcases h with (⟨-, h⟩ | ⟨-, h⟩) | ⟨-, h⟩
  · exact Nat.lt_of_le_of_lt (UInt32.le_iff_toNat_le.mp h) (by decide)
  · exact Nat.lt_of_le_of_lt (UInt32.le_iff_toNat_le.mp h) (by decide)
  · exact Nat.lt_of_le_of_lt (UInt32.le_iff_toNat_le.mp h) (by decide)

/-- What holds of the ASCII characters among them holds of all hexadecimal digits. -/
theorem forall_isHexDigit {P : Char → Prop}
    (h : ∀ n < 0x80, isHexDigit (Char.ofNat n) = true → P (Char.ofNat n))
    (hd : isHexDigit d = true) : P d := by
  have hn := h d.toNat (toNat_lt_of_isHexDigit hd)
  rw [Char.ofNat_toNat] at hn
  exact hn hd

theorem exists_digitChar (h : c ∈ Nat.toDigits 16 n) : ∃ d < 16, c = Nat.digitChar d := by
  induction n using Nat.strongRecOn with
  | ind n ih =>
      by_cases hn : n < 16
      · rw [Nat.toDigits_of_lt_base hn, List.mem_singleton] at h
        exact ⟨n, hn, h⟩
      · rw [Nat.toDigits_of_base_le (by decide) (by omega), List.mem_append,
          List.mem_singleton] at h
        rcases h with h | h
        · exact ih (n / 16) (by omega) h
        · exact ⟨n % 16, Nat.mod_lt n (by decide), h⟩

/-- Digits are read from the left, each as the last one of the number that it ends. -/
theorem foldlM_toDigits (hg : ∀ d < 16, hexDigit? (g (Nat.digitChar d)) = some d) (n : Nat) :
    ((Nat.toDigits 16 n).map g).foldlM (fun n c => (hexDigit? c).map fun d => 16 * n + d) 0 =
      some n := by
  induction n using Nat.strongRecOn with
  | ind n ih =>
      by_cases hn : n < 16
      · simp [Nat.toDigits_of_lt_base hn, hg n hn]
      · have hlast := hg (n % 16) (Nat.mod_lt n (by decide))
        rw [Nat.toDigits_of_base_le (by decide) (by omega), List.map_append, List.foldlM_append,
          ih (n / 16) (by omega)]
        simp [hlast, Nat.div_add_mod]

/-- The digits of a number are read as that number, in whichever case they are written. -/
theorem hexDigits?_toDigits (hg : ∀ d < 16, hexDigit? (g (Nat.digitChar d)) = some d) (n : Nat) :
    Style.hexDigits? ((Nat.toDigits 16 n).map g) = some n := by
  rw [Style.hexDigits?, if_neg (by simp [Nat.toDigits_ne_nil]), foldlM_toDigits hg]

theorem foldlM_zeros (k : Nat) :
    (List.replicate k '0').foldlM (fun n c => (hexDigit? c).map fun d => 16 * n + d) 0 =
      some 0 := by
  have hzero : hexDigit? '0' = some 0 := rfl
  induction k with
  | zero => rfl
  | succ k ih => simp [List.replicate_succ, hzero, ih]

theorem hexDigits?_ofHex (width n : Nat) : Style.hexDigits? (ofHex width n) = some n := by
  have hdigits := foldlM_toDigits (g := id) (by decide) n
  rw [List.map_id] at hdigits
  rw [Style.hexDigits?, if_neg (by simp [ofHex, Nat.toDigits_ne_nil]), ofHex, List.foldlM_append,
    foldlM_zeros]
  exact hdigits

theorem isHexDigit_of_mem_ofHex (h : c ∈ ofHex width n) : isHexDigit c = true := by
  rcases List.mem_append.mp h with h | h
  · obtain rfl := List.eq_of_mem_replicate h
    rfl
  · obtain ⟨d, hd, rfl⟩ := exists_digitChar h
    have hall : ∀ d < 16, isHexDigit (Nat.digitChar d) = true := by decide
    exact hall d hd

theorem length_ofHex (hw : 0 < width) (h : n < Nat.pow 16 width) :
    (ofHex width n).length = width := by
  have hlen : (Nat.toDigits 16 n).length ≤ width :=
    (Nat.length_toDigits_le_iff (by decide) hw).mpr h
  rw [ofHex, List.length_append, List.length_replicate, Nat.sub_add_cancel hlen]

end PioSyntax.Text

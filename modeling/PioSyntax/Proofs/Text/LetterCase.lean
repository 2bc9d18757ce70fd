import PioSyntax.Pattern
import PioSyntax.Proofs.Text.Spelling

namespace PioSyntax

open Text

def Spelling.capitals : Spelling where
  spell c := [c.toUpper]
  spell_ne_nil _ := List.cons_ne_nil _ _

namespace Text

def smallLetters : Text := (List.range 26).map fun n => Char.ofNat (n + 0x61)

variable {α : Type} {s t : Text} {c d : Char} {n : Nat}

theorem toUpper_eq_self_or_mem (c : Char) : c.toUpper = c ∨ c ∈ smallLetters := by
  by_cases h : 'a'.val ≤ c.val ∧ c.val ≤ 'z'.val
  · have hlow : 0x61 ≤ c.toNat := UInt32.le_iff_toNat_le.mp h.1
    have hhigh : c.toNat ≤ 0x7A := UInt32.le_iff_toNat_le.mp h.2
    refine .inr (List.mem_map.mpr ⟨c.toNat - 0x61, List.mem_range.mpr (by omega), ?_⟩)
    rw [Nat.sub_add_cancel hlow, Char.ofNat_toNat]
  · exact .inl (dif_neg h)

/-- What is the same for the capital of each small letter is so for the capital of any
character. -/
theorem congr_toUpper [BEq α] [LawfulBEq α] (f : Char → α)
    (h : (smallLetters.all fun c => f c.toUpper == f c) = true) (c : Char) :
    f c.toUpper = f c := by
  rcases toUpper_eq_self_or_mem c with hc | hc
  · rw [hc]
  · exact eq_of_beq (List.all_eq_true.mp h c hc)

theorem toUpper_eq_iff (h : (smallLetters.all fun c => (c.toUpper == d) == (c == d)) = true) :
    c.toUpper = d ↔ c = d := by
  have heq := congr_toUpper (· == d) h c
  rw [← beq_iff_eq, ← beq_iff_eq (b := d), heq]

theorem eq_or_eq_of_toUpper {e : Char} (hc : c.toUpper = d)
    (h : (smallLetters.all fun c => c.toUpper != d || c == e) = true) : c = d ∨ c = e := by
  rcases toUpper_eq_self_or_mem c with hself | hm
  · exact .inl (hself ▸ hc)
  · have hc' := List.all_eq_true.mp h c hm
    simp only [hc, bne_self_eq_false, Bool.false_or, beq_iff_eq] at hc'
    exact .inr hc'

theorem isWord_toUpper (c : Char) : isWord c.toUpper = isWord c := congr_toUpper isWord rfl c

theorem isBlank_toUpper (c : Char) : isBlank c.toUpper = isBlank c := congr_toUpper isBlank rfl c

theorem isNameStart_toUpper (c : Char) : isNameStart c.toUpper = isNameStart c :=
  congr_toUpper isNameStart rfl c

theorem fold_toUpper (c : Char) : fold c.toUpper = fold c := congr_toUpper fold rfl c

theorem sameLetters_capitals (s t : Text) :
    sameLetters (s.map Char.toUpper) t = sameLetters s t := by
  induction s generalizing t with
  | nil => rfl
  | cons c s ih =>
      cases t with
      | nil => rfl
      | cons d t => rw [List.map_cons, sameLetters, sameLetters, ih, sameLetter, fold_toUpper, sameLetter]

/-- The characters outside ASCII that fold into it: two forms of `i`, the long `s` and the kelvin
sign. -/
def foldedLetters : List Nat := [0x130, 0x131, 0x17F, 0x212A]

theorem foldWith_eq_or (n : Nat) (runs : List FoldRun) : foldWith n runs = n ∨
    ∃ r ∈ runs, r.first ≤ n ∧ n ≤ r.last ∧ foldWith n runs = n - r.down := by
  induction runs with
  | nil => exact .inl rfl
  | cons r runs ih =>
      simp only [foldWith]
      split
      · exact .inl rfl
      · next hlt =>
          split
          · next h =>
              simp only [Bool.and_eq_true, decide_eq_true_eq] at h
              exact .inr ⟨r, by simp, Nat.le_of_not_lt hlt, h.1, rfl⟩
          · rcases ih with h | ⟨r', hr, h⟩
            · exact .inl h
            · exact .inr ⟨r', List.mem_cons_of_mem r hr, h⟩

theorem foldWith_lt (hn : 0x80 ≤ n) (h : foldWith n foldRuns < 0x80) : n ∈ foldedLetters := by
  have hruns : ∀ r ∈ foldRuns, 0x80 + r.down ≤ r.first ∨
      r.first = r.last ∧ r.first ∈ foldedLetters := by decide +kernel
  rcases foldWith_eq_or n foldRuns with he | ⟨r, hr, hfirst, hlast, he⟩
  · omega
  · rcases hruns r hr with hrun | ⟨hsame, hmem⟩
    · omega
    · rwa [Nat.le_antisymm (hsame ▸ hlast) hfirst]

/-- What agrees with an ASCII word character up to case is a word character. -/
theorem isWord_of_sameLetter (hc : c.toNat < 0x80) (hw : isWord c = true)
    (h : sameLetter c d = true) : isWord d = true := by
  have hfold : c.toUpper = fold d := by
    rw [← eq_of_beq h, fold, if_pos hc]
  have hup : isWord c.toUpper = true := by rwa [isWord_toUpper]
  have hlt : c.toUpper.toNat < 0x80 :=
    of_decide_eq_true ((congr_toUpper (fun c => decide (c.toNat < 0x80)) rfl c).trans
      (decide_eq_true hc))
  rw [hfold] at hup hlt
  rw [fold] at hup hlt
  split at hup
  · rwa [isWord_toUpper] at hup
  · next hd =>
      rw [if_neg hd] at hlt
      by_cases hvalid : (foldWith d.toNat foldRuns).isValidChar
      · rw [Char.ofNat, dif_pos hvalid] at hlt
        have hfolded : ∀ n ∈ foldedLetters, isWord (Char.ofNat n) = true := by
          decide +kernel
        rw [← Char.ofNat_toNat d]
        exact hfolded _ (foldWith_lt (Nat.le_of_not_lt hd) hlt)
      · -- a number that is no character stands for the null character
        rw [Char.ofNat, dif_neg hvalid] at hup
        exact absurd hup (by decide)

theorem sameLetters_iff : sameLetters s t = true ↔ s.map fold = t.map fold := by
  induction s generalizing t with
  | nil => cases t <;> simp [sameLetters]
  | cons c s ih =>
      cases t with
      | nil => simp [sameLetters]
      | cons d t => simp [sameLetters, sameLetter, ih]

end Text

end PioSyntax

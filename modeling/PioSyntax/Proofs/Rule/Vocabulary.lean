import PioSyntax.Proofs.Rule.Words

namespace PioSyntax

open Text

def Text.IsNumeral (word : Text) : Prop :=
  (∃ x digits, word = '0' :: x :: digits ∧ (x = 'x' ∨ x = 'X') ∧ digits ≠ [] ∧
    ∀ d ∈ digits, isHexDigit d = true) ∨
  (∃ b digits, word = '0' :: b :: digits ∧ (b = 'b' ∨ b = 'B') ∧ digits ≠ [] ∧
    ∀ d ∈ digits, isBinaryDigit d = true) ∨
  word ≠ [] ∧ ∀ d ∈ word, d.isDigit = true

namespace Pattern

variable {p : Pattern} {before : Option Char} {word : Text}

theorem isNumber_iff : isNumber word = true ↔ word.IsNumeral := by
  have hall {q : Char → Bool} {digits : Text} :
      (!digits.isEmpty && digits.all q) = true ↔ digits ≠ [] ∧ ∀ d ∈ digits, q d = true := by
    simp
  constructor
  · intro h
    unfold isNumber at h
    split at h
    · exact .inl ⟨_, _, rfl, .inl rfl, hall.mp h⟩
    · exact .inl ⟨_, _, rfl, .inr rfl, hall.mp h⟩
    · exact .inr (.inl ⟨_, _, rfl, .inl rfl, hall.mp h⟩)
    · exact .inr (.inl ⟨_, _, rfl, .inr rfl, hall.mp h⟩)
    · exact .inr (.inr (hall.mp h))
  · rintro (⟨x, digits, rfl, rfl | rfl, h⟩ | ⟨b, digits, rfl, rfl | rfl, h⟩ | h)
    · exact hall.mpr h
    · exact hall.mpr h
    · exact hall.mpr h
    · exact hall.mpr h
    · -- no letter stands among decimal digits
      have hsecond {c d : Char} {digits : Text} (he : word = c :: d :: digits) :
          d.isDigit = true := h.2 d (by simp [he])
      unfold isNumber
      split
      · exact absurd (hsecond rfl) (by decide)
      · exact absurd (hsecond rfl) (by decide)
      · exact absurd (hsecond rfl) (by decide)
      · exact absurd (hsecond rfl) (by decide)
      · exact hall.mpr h

theorem exists_digit (h : word.IsNumeral) : ∃ d digits, word = d :: digits ∧ d.isDigit = true := by
  rcases h with ⟨x, digits, rfl, -⟩ | ⟨b, digits, rfl, -⟩ | ⟨hne, hall⟩
  · exact ⟨_, _, rfl, rfl⟩
  · exact ⟨_, _, rfl, rfl⟩
  · obtain ⟨d, digits, rfl⟩ := List.exists_cons_of_ne_nil hne
    exact ⟨d, digits, rfl, hall d List.mem_cons_self⟩

end Pattern

namespace Rule

open Pattern

def folded (r : Rule) : List Text :=
  match r.pattern with
  | .keyword words => words.map fun w => w.map fold
  | _ => []

variable {r r' : Rule} {before : Option Char} {word : Text}

theorem accepts_iff (h : r.pattern.TakesWords) : r.pattern.Accepts before word ↔
    (before ≠ some '.' ∧ word.map fold ∈ r.folded) ∨ (r.pattern = .number ∧ word.IsNumeral) := by
  unfold folded
  cases hp : r.pattern with
  | comment | directive | label | arrayIndex | operator =>
      rw [hp] at h
      exact h.elim
  | keyword words => simp [Accepts, sameLetters_iff]
  | number => simp [Accepts, isNumber_iff]

theorem digit_not_folded : ∀ r ∈ defaultRules, ∀ w ∈ r.folded,
    (w.all fun c => !c.isDigit) = true := by decide

theorem folded_disjoint : ∀ r ∈ defaultRules, ∀ r' ∈ defaultRules, ∀ w ∈ r.folded,
    w ∈ r'.folded → r = r' := by decide

theorem pattern_injOn : ∀ r ∈ defaultRules, ∀ r' ∈ defaultRules, r.pattern = r'.pattern → r = r' := by
  decide

theorem group_of_takesWords : ∀ r ∈ defaultRules, r.pattern.TakesWords → r.group = 0 := by decide

theorem digit_mem_fold {d : Char} (hd : d.isDigit = true) (hm : d ∈ word) :
    d ∈ word.map fold := by
  have hlt : d.toNat < 0x80 := by
    have hle : d.val ≤ '9'.val := of_decide_eq_true (Bool.and_eq_true_iff.mp hd).2
    exact Nat.lt_of_le_of_lt (UInt32.le_iff_toNat_le.mp hle) (by decide)
  refine List.mem_map.mpr ⟨d, hm, ?_⟩
  rw [fold, if_pos hlt]
  rcases toUpper_eq_self_or_mem d with h | h
  · exact h
  · have hsmall : (smallLetters.all fun c => !c.isDigit) = true := rfl
    exact absurd hd (by simpa using List.all_eq_true.mp hsmall d h)

theorem not_folded_of_isNumeral (hr : r ∈ defaultRules) (h : word.IsNumeral) :
    word.map fold ∉ r.folded := by
  intro hm
  obtain ⟨d, digits, rfl, hd⟩ := exists_digit h
  have hfold := digit_mem_fold hd (List.mem_cons_self (l := digits))
  exact absurd (List.all_eq_true.mp (digit_not_folded r hr _ hm) d hfold) (by simp [hd])

/-- No word is accepted by two of the default rules. -/
theorem eq_of_accepts (hr : r ∈ defaultRules) (hr' : r' ∈ defaultRules)
    (hw : r.pattern.TakesWords) (hw' : r'.pattern.TakesWords)
    (h : r.pattern.Accepts before word) (h' : r'.pattern.Accepts before word) : r = r' := by
  rcases (accepts_iff hw).mp h with ⟨-, h⟩ | ⟨hp, hn⟩
  · rcases (accepts_iff hw').mp h' with ⟨-, h'⟩ | ⟨-, hn'⟩
    · exact folded_disjoint r hr r' hr' _ h h'
    · exact absurd h (not_folded_of_isNumeral hr hn')
  · rcases (accepts_iff hw').mp h' with ⟨-, h'⟩ | ⟨hp', -⟩
    · exact absurd h' (not_folded_of_isNumeral hr' hn)
    · exact pattern_injOn r hr r' hr' (hp.trans hp'.symm)

end Rule

end PioSyntax

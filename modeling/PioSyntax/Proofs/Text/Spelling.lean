import Mathlib.Data.List.Basic
import Mathlib.Data.List.Induction
import Mathlib.Order.Monotone.Basic
import PioSyntax.Proofs.Text.Between
import PioSyntax.Proofs.Text.Runs

namespace PioSyntax

open Text

/-- Spells each character of a text by one or more others. -/
structure Spelling where
  spell : Char → Text
  spell_ne_nil : ∀ c, spell c ≠ []

namespace Spelling

variable (R : Spelling) {source s t : Text} {a b n start : Nat} {c : Char} {part : Span}

def text (t : Text) : Text := t.flatMap R.spell

def before (c : Option Char) : Option Char := c.bind fun c => (R.spell c).getLast?

def move (source : Text) (n : Nat) : Nat := (R.text (source.take n)).length + (n - source.length)

def span (source : Text) (s : Span) : Span := ⟨R.move source s.start, R.move source s.stop⟩

def token (source : Text) (t : Token) : Token := ⟨t.category, R.span source t.span, R.text t.text⟩

@[simp] theorem text_nil : R.text [] = [] := rfl

theorem text_cons : R.text (c :: t) = R.spell c ++ R.text t := List.flatMap_cons

theorem text_append : R.text (s ++ t) = R.text s ++ R.text t := List.flatMap_append

theorem text_singleton : R.text [c] = R.spell c := List.flatMap_singleton _ _

theorem take_text (t : Text) (n : Nat) :
    (R.text t).take (R.text (t.take n)).length = R.text (t.take n) := by
  have h : R.text t = R.text (t.take n) ++ R.text (t.drop n) := by
    rw [← text_append, List.take_append_drop]
  rw [h, List.take_left]

theorem drop_text (t : Text) (n : Nat) :
    (R.text t).drop (R.text (t.take n)).length = R.text (t.drop n) := by
  have h : R.text t = R.text (t.take n) ++ R.text (t.drop n) := by
    rw [← text_append, List.take_append_drop]
  rw [h, List.drop_left]

theorem between_text (t : Text) (h : a ≤ b) :
    (R.text t).between (R.text (t.take a)).length (R.text (t.take b)).length =
      R.text (t.between a b) := by
  have htake : t.take a = (t.take b).take a := by rw [List.take_take, Nat.min_eq_left h]
  rw [between, ← List.drop_take, take_text, htake, drop_text, List.drop_take, between]

theorem getLast?_text (t : Text) : (R.text t).getLast? = R.before t.getLast? := by
  induction t using List.reverseRecOn with
  | nil => rfl
  | append_singleton t c =>
      rw [text_append, List.getLast?_concat, text_singleton,
        List.getLast?_append_of_ne_nil _ (R.spell_ne_nil c)]
      rfl

theorem charBefore_text (before : Option Char) (t : Text) :
    charBefore (R.before before) (R.text t) = R.before (charBefore before t) := by
  rw [charBefore, charBefore, getLast?_text]
  cases h : t.getLast? with
  | none => rfl
  | some c =>
      rw [Option.some_or, Spelling.before, Option.bind_some,
        List.getLast?_eq_some_getLast (R.spell_ne_nil c), Option.some_or]

theorem length_spell_pos (c : Char) : 0 < (R.spell c).length :=
  List.length_pos_iff.mpr (R.spell_ne_nil c)

theorem move_of_le (h : n ≤ source.length) : R.move source n = (R.text (source.take n)).length := by
  rw [move, Nat.sub_eq_zero_of_le h, Nat.add_zero]

theorem move_length : R.move source source.length = (R.text source).length := by
  rw [R.move_of_le (Nat.le_refl _), List.take_length]

@[simp] theorem move_zero : R.move source 0 = 0 := by
  rw [R.move_of_le (Nat.zero_le _), List.take_zero, text_nil, List.length_nil]

theorem move_strictMono (source : Text) : StrictMono (R.move source) := by
  apply strictMono_nat_of_lt_succ
  intro n
  by_cases h : n < source.length
  · rw [R.move_of_le (Nat.le_of_lt h), R.move_of_le h, List.take_succ_eq_append_getElem h,
      text_append, text_singleton, List.length_append]
    exact Nat.lt_add_of_pos_right (R.length_spell_pos _)
  · have hn : source.length ≤ n := Nat.le_of_not_lt h
    rw [move, move, List.take_of_length_le hn, List.take_of_length_le (Nat.le_succ_of_le hn)]
    omega

theorem move_le_move : R.move source a ≤ R.move source b ↔ a ≤ b :=
  (R.move_strictMono source).le_iff_le

theorem move_add (h : IsAt source start (s ++ t)) :
    R.move source (start + s.length) = R.move source start + (R.text s).length := by
  have hle := h.le
  rw [List.length_append] at hle
  rw [R.move_of_le (by omega), R.move_of_le (by omega), h.take, text_append, List.length_append]

theorem move_succ (h : IsAt source start (c :: t)) :
    R.move source (start + 1) = R.move source start + (R.spell c).length := by
  rw [← text_singleton]
  exact R.move_add (s := [c]) h

theorem move_add_take (h : IsAt source start t) (hn : n ≤ t.length) :
    R.move source (start + n) = R.move source start + (R.text (t.take n)).length := by
  rw [← List.take_append_drop n t] at h
  have hmove := R.move_add h
  rwa [List.length_take, Nat.min_eq_left hn] at hmove

theorem length_text_take_succ {d : Char} {ds : Text} (hd : R.spell c = d :: ds) :
    (R.text ((c :: t).take (n + 1))).length - 1 = ds.length + (R.text (t.take n)).length := by
  rw [List.take_succ_cons, text_cons, hd, List.length_append, List.length_cons]
  omega

theorem slice_text (hs : part.start ≤ part.stop) (he : part.stop ≤ source.length) :
    (R.span source part).slice (R.text source) = R.text (part.slice source) := by
  rw [Span.slice, Span.slice, ← R.between_text source hs, Spelling.span, R.move_of_le he,
    R.move_of_le (Nat.le_trans hs he)]

end Spelling

end PioSyntax

import Mathlib.Data.List.Basic
import PioSyntax.Html
import PioSyntax.Proofs.Style.Written
import PioSyntax.Proofs.Text.Marks

namespace PioSyntax

open Text

namespace Html

/-- What a reference stands for, by what is between its ampersand and its semicolon: one of four
names, or a number in hexadecimal digits, where `numbered` gives the character of a number. -/
def reference? (numbered : Nat → Char) (name : Text) : Option Char :=
  if name = ("amp" : Text) then some '&'
  else if name = ("lt" : Text) then some '<'
  else if name = ("gt" : Text) then some '>'
  else if name = ("quot" : Text) then some '"'
  else
    match name with
    | '#' :: 'x' :: digits =>
      if digits.all isHexDigit then (Style.hexDigits? digits).map numbered else none
    | _ => none

/-- Reads a text in which references stand for characters. Every ampersand has to begin one. -/
def unescape? (numbered : Nat → Char) (text : Text) : Option Text :=
  (marks? '&' ';' text).bind fun (lead, references) =>
    (references.mapM fun (name, after) => (reference? numbered name).map (· :: after)).map
      fun pieces => lead ++ List.flatten pieces

def isBare (c : Char) : Bool := c.toNat < 0x80 && c != '<' && c != '>' && c != '&'

def inReference (c : Char) : Bool := isBare c && c != ';' && c != '"'

def numeral (c : Char) : Text := "#x" ++ (Nat.toDigits 16 c.toNat).map Char.toUpper

def reread (numbered : Nat → Char) (c : Char) : Char :=
  if 0x7F < c.toNat then numbered c.toNat else c

inductive Writes (c : Char) : Text → Prop
  | bare (h : isBare c = true) : Writes c [c]
  | reference {name : Text} (hn : ∀ d ∈ name, inReference d = true)
      (hr : ∀ numbered, reference? numbered name = some (reread numbered c)) :
      Writes c ('&' :: (name ++ [';']))

def attributeChar (c : Char) : Text :=
  (escapeChar c).flatMap fun c => if c = '"' then "&quot;" else [c]

variable {numbered : Nat → Char} {s t name : Text} {c d : Char}

theorem isHexDigit_capital {n : Nat} (h : d ∈ (Nat.toDigits 16 n).map Char.toUpper) :
    isHexDigit d = true := by
  obtain ⟨e, he, rfl⟩ := List.mem_map.mp h
  obtain ⟨m, hm, rfl⟩ := exists_digitChar he
  have hall : ∀ m < 16, isHexDigit (Nat.digitChar m).toUpper = true := by decide
  exact hall m hm

theorem inReference_numeral (h : d ∈ numeral c) : inReference d = true := by
  rcases List.mem_append.mp h with h | h
  · exact List.all_eq_true.mp (rfl : "#x".toList.all inReference = true) d h
  · exact forall_isHexDigit (P := fun d => inReference d = true) (by decide) (isHexDigit_capital h)

theorem reference?_numeral : reference? numbered (numeral c) = some (numbered c.toNat) := by
  have hall : ((Nat.toDigits 16 c.toNat).map Char.toUpper).all isHexDigit = true :=
    List.all_eq_true.mpr fun _ h => isHexDigit_capital h
  have hdigits := hexDigits?_toDigits (g := Char.toUpper) (by decide) c.toNat
  simp [reference?, numeral, hall, hdigits]

theorem unescape?_nil : unescape? numbered [] = some [] := by
  simp [unescape?, marks?, splitOn]

theorem unescape?_append (h : '&' ∉ s) :
    unescape? numbered (s ++ t) = (unescape? numbered t).map (s ++ ·) := by
  simp only [unescape?, marks?_append h, Option.bind_map, Option.map_bind, Function.comp_def,
    Option.map_map, List.append_assoc]

theorem unescape?_reference (ho : '&' ∉ name) (hc : ';' ∉ name)
    (h : reference? numbered name = some c) :
    unescape? numbered ('&' :: (name ++ ';' :: t)) = (unescape? numbered t).map (c :: ·) := by
  rw [unescape?, marks?_cons ho hc (by decide), unescape?]
  cases marks? '&' ';' t with
  | none => rfl
  | some m =>
      simp only [Option.map_some, Option.bind_some, List.mapM_cons, h]
      generalize (List.mapM _ m.2 : Option (List Text)) = pieces
      cases pieces <;> rfl

theorem reread_of_isBare (h : isBare c = true) : reread numbered c = c := by
  simp only [isBare, Bool.and_eq_true, decide_eq_true_eq] at h
  rw [reread, if_neg (by omega)]

theorem isBare_iff : isBare c = true ↔ c.toNat < 0x80 ∧ c ≠ '<' ∧ c ≠ '>' ∧ c ≠ '&' := by
  simp [isBare, and_assoc]

theorem writes_named (name : String) (hn : name.toList.all inReference = true)
    (hr : ∀ numbered, reference? numbered name = some c) (hc : c.toNat < 0x80) :
    Writes c ('&' :: (name.toList ++ [';'])) :=
  .reference (List.all_eq_true.mp hn) fun numbered => by
    rw [hr, reread, if_neg (by omega)]

theorem writes_escapeChar (c : Char) : Writes c (escapeChar c) := by
  unfold escapeChar
  split
  · next h => exact h ▸ writes_named "amp" rfl (fun _ => rfl) (by decide)
  · next hamp =>
      split
      · next h => exact h ▸ writes_named "lt" rfl (fun _ => rfl) (by decide)
      · next hlt =>
          split
          · next h => exact h ▸ writes_named "gt" rfl (fun _ => rfl) (by decide)
          · next hgt =>
              split
              · next h =>
                  have hnumeral : Writes c ('&' :: (numeral c ++ [';'])) :=
                    .reference (fun _ hd => inReference_numeral hd) fun numbered => by
                      rw [reference?_numeral, reread, if_pos h]
                  exact hnumeral
              · next h => exact .bare (isBare_iff.mpr ⟨by omega, hlt, hgt, hamp⟩)

/-- A quotation mark is replaced where it stands as it is, and is in no reference. -/
theorem writes_attributeChar (c : Char) : Writes c (attributeChar c) := by
  unfold attributeChar
  by_cases hq : c = '"'
  · subst hq
    exact writes_named "quot" rfl (fun _ => rfl) (by decide)
  · have h := writes_escapeChar c
    generalize escapeChar c = text at h
    cases h with
    | bare h =>
        rw [List.flatMap_singleton, if_neg hq]
        exact .bare h
    | @reference name hn hr =>
        have hquote : ∀ d ∈ '&' :: (name ++ [';']), d ≠ '"' := by
          simp only [List.forall_mem_cons, List.forall_mem_append]
          refine ⟨by decide, fun d hd => ?_, by decide, by simp⟩
          rintro rfl
          exact absurd (hn _ hd) (by decide)
        have hself : ('&' :: (name ++ [';'])).flatMap
            (fun c => if c = '"' then "&quot;".toList else [c]) = '&' :: (name ++ [';']) := by
          rw [List.flatMap_congr (g := fun c => [c]) fun d hd => if_neg (hquote d hd),
            List.flatMap_singleton']
        rw [hself]
        exact .reference hn hr

theorem escapeAttribute_eq (s : Text) : escapeAttribute s = s.flatMap attributeChar := by
  rw [escapeAttribute, escape, List.flatMap_assoc]
  rfl

theorem quote_not_mem_escapeAttribute : '"' ∉ escapeAttribute s := by
  intro h
  obtain ⟨c, -, hc⟩ := List.mem_flatMap.mp h
  split at hc
  · exact absurd hc (by decide)
  · next hne => exact hne (List.mem_singleton.mp hc).symm

theorem unescape?_writes {text : Text} (h : Writes c text) :
    unescape? numbered (text ++ t) = (unescape? numbered t).map (reread numbered c :: ·) := by
  cases h with
  | bare h =>
      have hamp : '&' ∉ [c] := by simpa using Ne.symm (isBare_iff.mp h).2.2.2
      rw [unescape?_append hamp, reread_of_isBare h]
      rfl
  | @reference name hn hr =>
      have hout {d : Char} (hd : inReference d = false) : d ∉ name := fun hm => by
        simp [hn d hm] at hd
      have htext : '&' :: (name ++ [';']) ++ t = '&' :: (name ++ ';' :: t) := by simp
      rw [htext, unescape?_reference (hout rfl) (hout rfl) (hr numbered)]

theorem unescape?_flatMap {f : Char → Text} (h : ∀ c, Writes c (f c)) (s : Text) :
    unescape? numbered (s.flatMap f) = some (s.map (reread numbered)) := by
  induction s with
  | nil => exact unescape?_nil
  | cons c s ih =>
      rw [List.flatMap_cons, unescape?_writes (h c), ih]
      rfl

theorem unescape?_escape (s : Text) :
    unescape? numbered (escape s) = some (s.map (reread numbered)) :=
  unescape?_flatMap writes_escapeChar s

theorem map_reread (s : Text) : s.map (reread Char.ofNat) = s := by
  have hself : reread Char.ofNat = id := by
    funext c
    rw [reread, Char.ofNat_toNat, ite_self]
    rfl
  rw [hself, List.map_id]

theorem unescape?_escapeAttribute (s : Text) :
    unescape? Char.ofNat (escapeAttribute s) = some s := by
  rw [escapeAttribute_eq, unescape?_flatMap writes_attributeChar, map_reread]

end Html

end PioSyntax

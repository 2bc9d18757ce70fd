import Mathlib.Tactic.SplitIfs
import PioSyntax.Proofs.Text.Hexadecimal

namespace PioSyntax.Text

def numbered? (size : Nat) (text : Text) : Option Char :=
  let digits := text.take size
  if digits.length = size && digits.all isHexDigit then
    (Style.hexDigits? digits).map Char.ofNat
  else none

def escaped? : Text → Option (Char × Nat)
  | [] => none
  | c :: cs =>
    if c = 'n' then some ('\n', 1)
    else if c = 'r' then some ('\r', 1)
    else if c = 't' then some ('\t', 1)
    else if c = 'x' then (numbered? 2 cs).map (·, 3)
    else if c = 'u' then (numbered? 4 cs).map (·, 5)
    else if c = 'U' then (numbered? 8 cs).map (·, 9)
    else if c = '\\' || c = '\x27' || c = '"' then some (c, 1)
    else none

/-- Reads a text after its opening quote. The quote that closes it has to be the last character. Of
an escape, `skip` characters are left. -/
def unquoteFrom? (quote : Char) (skip : Nat) : Text → Option Text
  | [] => none
  | c :: cs =>
    match skip with
    | skip + 1 => unquoteFrom? quote skip cs
    | 0 =>
      if c = quote then if cs = [] then some [] else none
      else if c = '\\' then
        (escaped? cs).bind fun (d, size) => (unquoteFrom? quote size cs).map (d :: ·)
      else (unquoteFrom? quote 0 cs).map (c :: ·)

def unquote? : Text → Option Text
  | [] => none
  | quote :: cs =>
    if quote = '\x27' || quote = '"' then unquoteFrom? quote 0 cs else none

/-- A character between quotes is written as itself or as an escape that stands for it, and never as
a line feed. -/
inductive Quotes (quote c : Char) : Text → Prop
  | bare (hq : c ≠ quote) (hb : c ≠ '\\') (hn : c ≠ '\n') : Quotes quote c [c]
  | escape {code : Text} (h : ∀ t, escaped? (code ++ t) = some (c, code.length))
      (hn : '\n' ∉ code) : Quotes quote c ('\\' :: code)

variable {quote c : Char} {size : Nat} {s t text : Text}

theorem numbered?_ofHex (hs : 0 < size) (h : c.toNat < Nat.pow 16 size) (t : Text) :
    numbered? size (ofHex size c.toNat ++ t) = some c := by
  have hlen := length_ofHex hs h
  have hall : (ofHex size c.toNat).all isHexDigit = true :=
    List.all_eq_true.mpr fun _ hd => isHexDigit_of_mem_ofHex hd
  simp [numbered?, List.take_left' hlen, hlen, hall, hexDigits?_ofHex]

theorem newline_not_mem_ofHex (size n : Nat) : '\n' ∉ ofHex size n := fun h =>
  absurd (isHexDigit_of_mem_ofHex h) (by decide)

theorem quotes_numbered {letter : Char} (hl : letter ≠ '\n') (hs : 0 < size)
    (h : c.toNat < Nat.pow 16 size)
    (hr : ∀ cs, escaped? (letter :: cs) = (numbered? size cs).map (·, size + 1)) :
    Quotes quote c ('\\' :: letter :: ofHex size c.toNat) := by
  refine .escape (fun t => ?_) ?_
  · rw [List.cons_append, hr, numbered?_ofHex hs h, List.length_cons, length_ofHex hs h]
    rfl
  · rw [List.mem_cons, not_or]
    exact ⟨hl.symm, newline_not_mem_ofHex size c.toNat⟩

theorem quotes_letter {letter : Char} (hl : letter ≠ '\n')
    (hr : ∀ cs, escaped? (letter :: cs) = some (c, 1)) : Quotes quote c ['\\', letter] :=
  .escape hr (by simpa using hl.symm)

theorem quotes_self (h : c = '\\' ∨ c = '\x27' ∨ c = '"') : Quotes quote c ['\\', c] := by
  rcases h with rfl | rfl | rfl <;> exact quotes_letter (by decide) fun _ => rfl

theorem quotes_escape (hq : quote = '\x27' ∨ quote = '"') (c : Char) :
    Quotes quote c (escape quote c) := by
  unfold escape
  split_ifs with hself hn hr ht hp hx hu
  · simp only [Bool.or_eq_true, decide_eq_true_eq] at hself
    rcases hself with rfl | rfl
    · exact quotes_self (.inr hq)
    · exact quotes_self (.inl rfl)
  · exact hn ▸ quotes_letter (by decide) fun _ => rfl
  · exact hr ▸ quotes_letter (by decide) fun _ => rfl
  · exact ht ▸ quotes_letter (by decide) fun _ => rfl
  · simp only [Bool.or_eq_true, decide_eq_true_eq, not_or] at hself
    exact .bare hself.1 hself.2 hn
  · exact quotes_numbered (by decide) (by decide) hx fun _ => rfl
  · exact quotes_numbered (by decide) (by decide) hu fun _ => rfl
  · have hmax : c.toNat < Nat.pow 16 8 := c.val.toNat_lt
    exact quotes_numbered (by decide) (by decide) hmax fun _ => rfl

theorem newline_not_mem_quotes (h : Quotes quote c text) : '\n' ∉ text := by
  cases h with
  | bare hq hb hn => simpa using hn.symm
  | escape h hn => simpa using hn

theorem unquoteFrom?_skip (quote : Char) (s t : Text) :
    unquoteFrom? quote s.length (s ++ t) = unquoteFrom? quote 0 t := by
  induction s with
  | nil => rfl
  | cons c s ih => exact ih

theorem unquoteFrom?_quotes (hq : quote ≠ '\\') (h : Quotes quote c text) (t : Text) :
    unquoteFrom? quote 0 (text ++ t) = (unquoteFrom? quote 0 t).map (c :: ·) := by
  cases h with
  | bare hquote hb hn => rw [List.singleton_append, unquoteFrom?, if_neg hquote, if_neg hb]
  | @escape code h hn =>
      rw [List.cons_append, unquoteFrom?, if_neg hq.symm, if_pos rfl, h, Option.bind_some]
      dsimp only
      rw [unquoteFrom?_skip]

theorem quoteFor_eq (s : Text) : quoteFor s = '\x27' ∨ quoteFor s = '"' := by
  unfold quoteFor
  split
  · exact .inr rfl
  · exact .inl rfl

theorem unquote?_quoted (s : Text) : unquote? (quoted s) = some s := by
  have hq := quoteFor_eq s
  have hne : quoteFor s ≠ '\\' := by rcases hq with h | h <;> rw [h] <;> decide
  -- the quote is that of the whole text, whichever part of it is left
  have hrest (t : Text) :
      unquoteFrom? (quoteFor s) 0 (t.flatMap (escape (quoteFor s)) ++ [quoteFor s]) = some t := by
    induction t with
    | nil => rw [List.flatMap_nil, List.nil_append, unquoteFrom?, if_pos rfl, if_pos rfl]
    | cons c t ih =>
        rw [List.flatMap_cons, List.append_assoc, unquoteFrom?_quotes hne (quotes_escape hq c), ih]
        rfl
  rw [quoted, List.cons_append, unquote?, if_pos (by simpa using hq)]
  exact hrest s

theorem newline_not_mem_quoted (s : Text) : '\n' ∉ quoted s := by
  have hq := quoteFor_eq s
  have hne : '\n' ≠ quoteFor s := by rcases hq with h | h <;> rw [h] <;> decide
  intro h
  rw [quoted, List.cons_append, List.mem_cons, List.mem_append, List.mem_singleton] at h
  rcases h with h | h | h
  · exact hne h
  · obtain ⟨c, -, hc⟩ := List.mem_flatMap.mp h
    exact newline_not_mem_quotes (quotes_escape hq c) hc
  · exact hne h

end PioSyntax.Text

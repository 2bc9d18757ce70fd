import PioSyntax.Proofs.Rule.Spelling
import PioSyntax.Proofs.Text.LetterCase

namespace PioSyntax

open Text

namespace Spelling

variable {source t : Text} {n : Nat} {c : Option Char}

theorem text_capitals (t : Text) : capitals.text t = t.map Char.toUpper := by
  induction t with
  | nil => rfl
  | cons c t ih => rw [text_cons, ih, List.map_cons]; rfl

theorem before_capitals (c : Option Char) : capitals.before c = c.map Char.toUpper := by
  cases c <;> rfl

theorem move_capitals (source : Text) (n : Nat) : capitals.move source n = n := by
  rw [move, text_capitals, List.length_map, List.length_take]
  omega

theorem capitals_ne_append {c : Char} {s t : Text} (hs : s ≠ []) (ht : t ≠ []) :
    capitals.spell c ≠ s ++ t := by
  intro h
  have hlen := congrArg List.length h
  rw [List.length_append] at hlen
  have := List.length_pos_iff.mpr hs
  have := List.length_pos_iff.mpr ht
  change 1 = _ at hlen
  omega

theorem length_capitals_take (h : n ≤ t.length) : (capitals.text (t.take n)).length = n := by
  rw [length_text_take, move_capitals, Nat.min_eq_left h]

end Spelling

namespace Pattern

variable {p : Pattern} {source t : Text} {before : Option Char} {hit : Hit} {names words : List Text}

theorem startsLine_capitals (before : Option Char) :
    startsLine (before.map Char.toUpper) = startsLine before := by
  cases before with
  | none => rfl
  | some c => exact congr_toUpper (fun c => startsLine (some c)) rfl c

theorem startsWord_capitals (before : Option Char) :
    startsWord (before.map Char.toUpper) = startsWord before := by
  cases before with
  | none => rfl
  | some c => simp [startsWord, isWord_toUpper]

theorem takeWhile_capitals {q : Char → Bool} (h : ∀ c, q c.toUpper = q c) (t : Text) :
    (t.map Char.toUpper).takeWhile q = (t.takeWhile q).map Char.toUpper := by
  have hq : q ∘ Char.toUpper = q := funext h
  rw [List.takeWhile_map, hq]

theorem blanks_capitals (t : Text) : blanks (t.map Char.toUpper) = blanks t := by
  rw [blanks, takeWhile_capitals isBlank_toUpper, List.length_map, blanks]

theorem capitals_eq_cons {c : Char} {s : Text}
    (h : (smallLetters.all fun d => (d.toUpper == c) == (d == c)) = true) :
    t.map Char.toUpper = c :: s ↔ ∃ u, t = c :: u ∧ u.map Char.toUpper = s := by
  rw [List.map_eq_cons_iff]
  constructor
  · rintro ⟨d, u, rfl, hd, hu⟩
    rw [toUpper_eq_iff h] at hd
    exact ⟨u, by rw [hd], hu⟩
  · rintro ⟨u, rfl, hu⟩
    exact ⟨c, u, rfl, (toUpper_eq_iff h).mpr rfl, hu⟩

theorem head?_capitals {c : Char}
    (h : (smallLetters.all fun d => (d.toUpper == c) == (d == c)) = true) :
    (t.map Char.toUpper).head? = some c ↔ t.head? = some c := by
  simp only [List.head?_eq_some_iff, capitals_eq_cons h]
  constructor
  · rintro ⟨-, u, hu, -⟩
    exact ⟨u, hu⟩
  · rintro ⟨u, hu⟩
    exact ⟨_, u, hu, rfl⟩

theorem blockLength_capitals (t : Text) : blockLength (t.map Char.toUpper) = blockLength t := by
  induction t using blockLength_induction with
  | nil => rfl
  | closed rest => rfl
  | cons c t hopen ih =>
      rw [List.map_cons, blockLength_cons hopen, blockLength_cons, ih]
      rwa [head?_capitals rfl, toUpper_eq_iff rfl]

theorem comment?_capitals (t : Text) : comment? (t.map Char.toUpper) = comment? t := by
  have honLine (cs : Text) : ((cs.map Char.toUpper).takeWhile onLine).length =
      (cs.takeWhile onLine).length := by
    rw [takeWhile_capitals (congr_toUpper onLine rfl), List.length_map]
  fun_cases comment? t with
  | case1 cs => exact congrArg (fun n => some (Hit.mk (1 + n) none)) (honLine cs)
  | case2 cs => exact congrArg (fun n => some (Hit.mk (2 + n) none)) (honLine cs)
  | case3 cs => exact congrArg (fun n => some (Hit.mk (2 + n) none)) (blockLength_capitals cs)
  | case4 t h₁ h₂ h₃ =>
      unfold comment?
      split
      · next he =>
          obtain ⟨cs, rfl, -⟩ := (capitals_eq_cons rfl).mp he
          exact absurd rfl (h₁ cs)
      · next he =>
          obtain ⟨u, rfl, hu⟩ := (capitals_eq_cons rfl).mp he
          obtain ⟨cs, rfl, -⟩ := (capitals_eq_cons rfl).mp hu
          exact absurd rfl (h₂ cs)
      · next he =>
          obtain ⟨u, rfl, hu⟩ := (capitals_eq_cons rfl).mp he
          obtain ⟨cs, rfl, -⟩ := (capitals_eq_cons rfl).mp hu
          exact absurd rfl (h₃ cs)
      · rfl

theorem directive?_capitals (t : Text) :
    directive? names (before.map Char.toUpper) (t.map Char.toUpper) = directive? names before t := by
  simp only [directive?, startsLine_capitals, blanks_capitals, ← List.map_drop]
  by_cases hl : startsLine before = true
  · rw [if_pos hl, if_pos hl]
    split
    · next rest he =>
        obtain ⟨u, hu, rfl⟩ := (capitals_eq_cons rfl).mp he
        have hname (n : Text) : (names.any (sameLetters (n.map Char.toUpper))) =
            names.any (sameLetters n) := by
          congr 1
          funext name
          exact sameLetters_capitals n name
        rw [hu]
        simp only [takeWhile_capitals isWord_toUpper, List.length_map, hname]
    · next h =>
        split
        · next rest he => exact absurd (he ▸ rfl) (h (rest.map Char.toUpper))
        · rfl
  · rw [if_neg hl, if_neg hl]

theorem arrayIndex?_capitals (t : Text) : arrayIndex? (t.map Char.toUpper) = arrayIndex? t := by
  have hclosed (s : Text) : ((s.map Char.toUpper).head? == some ']') = (s.head? == some ']') := by
    rw [Bool.eq_iff_iff, beq_iff_eq, beq_iff_eq, head?_capitals rfl]
  unfold arrayIndex?
  split
  · next he =>
      obtain ⟨cs, rfl, rfl⟩ := (capitals_eq_cons rfl).mp he
      simp only [takeWhile_capitals (congr_toUpper inBrackets rfl), List.length_map,
        ← List.map_drop, hclosed]
  · next h =>
      split
      · next cs => exact absurd rfl (h (cs.map Char.toUpper))
      · rfl

theorem startsWithWord_capitals (word t : Text) :
    startsWithWord word (t.map Char.toUpper) = startsWithWord word t := by
  induction word generalizing t with
  | nil => rfl
  | cons a word ih =>
      cases t with
      | nil => rfl
      | cons b t =>
          rw [List.map_cons, startsWithWord, startsWithWord, ih, sameLetter, fold_toUpper, sameLetter]

theorem endsWord_capitals (t : Text) : endsWord (t.map Char.toUpper) = endsWord t := by
  cases t with
  | nil => rfl
  | cons c t => simp [endsWord, isWord_toUpper]

theorem standsAt_capitals (t : Text) : standsAt (t.map Char.toUpper) = standsAt t := by
  funext word
  rw [standsAt, startsWithWord_capitals, ← List.map_drop, endsWord_capitals, standsAt]

theorem keyword?_capitals (t : Text) :
    keyword? words (before.map Char.toUpper) (t.map Char.toUpper) = keyword? words before t := by
  have hpoint : (before.map Char.toUpper != some '.') = (before != some '.') := by
    cases before with
    | none => rfl
    | some c => exact congr_toUpper (fun c => some c != some '.') rfl c
  rw [keyword?, startsWord_capitals, hpoint, standsAt_capitals, keyword?]

theorem operator?_capitals (t : Text) : operator? (t.map Char.toUpper) = operator? t := by
  fun_cases operator? t with
  | case1 | case2 | case3 => rfl
  | case4 t h₁ h₂ h₃ =>
      unfold operator?
      split
      · next he =>
          obtain ⟨u, rfl, hu⟩ := (capitals_eq_cons rfl).mp he
          obtain ⟨rest, rfl, -⟩ := (capitals_eq_cons rfl).mp hu
          exact absurd rfl (h₁ rest)
      · next he =>
          obtain ⟨rest, rfl, -⟩ := (capitals_eq_cons rfl).mp he
          exact absurd rfl (h₂ rest)
      · next he =>
          obtain ⟨rest, rfl, -⟩ := (capitals_eq_cons rfl).mp he
          exact absurd rfl (h₃ rest)
      · rfl

theorem all_capitals {q : Char → Bool} (h : ∀ c, q c.toUpper = q c) (t : Text) :
    (!(t.map Char.toUpper).isEmpty && (t.map Char.toUpper).all q) = (!t.isEmpty && t.all q) := by
  have hq : q ∘ Char.toUpper = q := funext h
  rw [List.isEmpty_map, List.all_map, hq]

theorem isNumber_capitals (word : Text) : isNumber (word.map Char.toUpper) = isNumber word := by
  fun_cases isNumber word with
  | case1 digits | case2 digits => exact all_capitals (congr_toUpper isHexDigit rfl) digits
  | case3 digits | case4 digits => exact all_capitals (congr_toUpper isBinaryDigit rfl) digits
  | case5 word h₁ h₂ h₃ h₄ =>
      -- the second character of a number with a prefix is the letter `x` or `b`, small or not
      have hprefix {c : Char} {s : Text} (he : word.map Char.toUpper = '0' :: c :: s) :
          ∃ d u, word = '0' :: d :: u ∧ d.toUpper = c := by
        obtain ⟨v, rfl, hv⟩ := (capitals_eq_cons rfl).mp he
        obtain ⟨d, u, rfl, hd, -⟩ := List.map_eq_cons_iff.mp hv
        exact ⟨d, u, rfl, hd⟩
      unfold isNumber
      split
      · next he =>
          obtain ⟨d, u, rfl, hd⟩ := hprefix he
          rcases eq_or_eq_of_toUpper hd (e := 'x') rfl with rfl | rfl
          · exact absurd rfl (h₁ u)
          · exact absurd rfl (h₁ u)
      · next he =>
          obtain ⟨d, u, rfl, hd⟩ := hprefix he
          rcases eq_or_eq_of_toUpper hd (e := 'x') rfl with rfl | rfl
          · exact absurd rfl (h₂ u)
          · exact absurd rfl (h₁ u)
      · next he =>
          obtain ⟨d, u, rfl, hd⟩ := hprefix he
          rcases eq_or_eq_of_toUpper hd (e := 'b') rfl with rfl | rfl
          · exact absurd rfl (h₃ u)
          · exact absurd rfl (h₃ u)
      · next he =>
          obtain ⟨d, u, rfl, hd⟩ := hprefix he
          rcases eq_or_eq_of_toUpper hd (e := 'b') rfl with rfl | rfl
          · exact absurd rfl (h₄ u)
          · exact absurd rfl (h₃ u)
      · exact all_capitals (congr_toUpper Char.isDigit rfl) word

theorem number?_capitals (t : Text) :
    number? (before.map Char.toUpper) (t.map Char.toUpper) = number? before t := by
  simp only [number?, startsWord_capitals, takeWhile_capitals isWord_toUpper, isNumber_capitals,
    List.length_map]

/-- All patterns but one are blind for the case of letters. -/
theorem recognise_capitals (hp : p ≠ .label) (before : Option Char) (t : Text) :
    p.recognise (before.map Char.toUpper) (t.map Char.toUpper) = p.recognise before t := by
  cases p with
  | comment => exact comment?_capitals t
  | directive names => exact directive?_capitals t
  | label => exact absurd rfl hp
  | arrayIndex => exact arrayIndex?_capitals t
  | keyword words => exact keyword?_capitals t
  | operator => exact operator?_capitals t
  | number => exact number?_capitals t

theorem hit_capitals (h : p.recognise before t = some hit) : Spelling.capitals.hit t hit = hit := by
  obtain ⟨taken, rest, part, rfl, rfl, ht⟩ := recognise_iff.mp h
  have hlen : taken.length ≤ (taken ++ rest).length := by simp
  rw [Spelling.hit, Spelling.length_capitals_take hlen]
  cases part with
  | none => rfl
  | some part =>
      have hstop := Nat.le_trans ht.part_le hlen
      have hstart := Nat.le_trans ht.part_start_le hstop
      rw [Option.map_some, Spelling.inner, Spelling.length_capitals_take hstart,
        Spelling.length_capitals_take hstop]

theorem keeps_capitals (hp : p ≠ .label) (hn : p.Separates '\n') :
    Spelling.capitals.Keeps source p := by
  refine ⟨fun _ _ _ => size_pos hn, fun before t _ => ?_, fun c s t _ h hs ht => ?_⟩
  · rw [Spelling.before_capitals, Spelling.text_capitals, recognise_capitals hp]
    cases h : p.recognise before t with
    | none => rfl
    | some hit => rw [Option.map_some, hit_capitals h]
  · exact absurd h (Spelling.capitals_ne_append hs ht)

end Pattern

end PioSyntax

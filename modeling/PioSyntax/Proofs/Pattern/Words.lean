import PioSyntax.Proofs.Pattern.Separator
import PioSyntax.Proofs.Text.LetterCase
import PioSyntax.Proofs.Text.Words

namespace PioSyntax

open Text

namespace Pattern

def isPlainWord (w : Text) : Bool := w.all fun c => c.toNat < 0x80 && isWord c

def TakesWords : Pattern → Prop
  | keyword words => findable words = words ∧ ∀ w ∈ words, w ≠ [] ∧ isPlainWord w = true
  | number => True
  | comment | directive _ | label | arrayIndex | operator => False

instance (p : Pattern) : Decidable p.TakesWords :=
  match p with
  | keyword words => inferInstanceAs (Decidable (findable words = words ∧
      ∀ w ∈ words, w ≠ [] ∧ isPlainWord w = true))
  | number => inferInstanceAs (Decidable True)
  | comment | directive _ | label | arrayIndex | operator => inferInstanceAs (Decidable False)

def Accepts : Pattern → (before : Option Char) → (word : Text) → Prop
  | keyword words, before, word => before ≠ some '.' ∧ ∃ w ∈ words, sameLetters w word = true
  | number, _, word => isNumber word = true
  | comment, _, _ | directive _, _, _ | label, _, _ | arrayIndex, _, _ | operator, _, _ => False

variable {p : Pattern} {before : Option Char} {text taken rest s : Text} {part : Option Span}
variable {word : Text} {c d : Char}

theorem isWord_of_isPlainWord (hw : isPlainWord word = true) (hc : c ∈ word)
    (h : sameLetter c d = true) : isWord d = true := by
  have hascii := List.all_eq_true.mp hw c hc
  rw [Bool.and_eq_true, decide_eq_true_eq] at hascii
  exact isWord_of_sameLetter hascii.1 hascii.2 h

theorem forall_isWord_of_sameLetters (hw : isPlainWord word = true)
    (h : sameLetters word taken = true) : ∀ c ∈ taken, isWord c = true := by
  intro d hd
  obtain ⟨c, hc, hcd⟩ := exists_sameLetter h hd
  exact isWord_of_isPlainWord hw hc hcd

theorem separates_of_takesWords (hp : p.TakesWords) (hd : isWord d = false) : p.Separates d := by
  cases p with
  | keyword words =>
      refine ⟨hd, fun w hw => ?_⟩
      rw [hp.1] at hw
      obtain ⟨hne, hword⟩ := hp.2 w hw
      refine ⟨hne, List.any_eq_false.mpr fun c hc hsame => ?_⟩
      exact absurd (isWord_of_isPlainWord hword hc hsame) (by simp [hd])
  | number => exact hd
  | comment | directive | label | arrayIndex | operator => exact hp.elim

theorem takes_iff_accepts (hp : p.TakesWords) : Takes p before taken rest part ↔
    taken ≠ [] ∧ (∀ c ∈ taken, isWord c = true) ∧ before.any isWord = false ∧ Stops isWord rest ∧
      p.Accepts before taken ∧ part = none := by
  constructor
  · intro h
    have hne : taken ≠ [] := h.ne_nil (separates_of_takesWords hp (d := ' ') rfl)
    cases h with
    | lineComment | blockComment | openComment | directive | label | publicLabel | arrayIndex
    | operator => exact hp.elim
    | keyword hb hd hw hs hr hmax =>
        rw [hp.1] at hw
        refine ⟨hne, forall_isWord_of_sameLetters (hp.2 _ hw).2 hs, ?_, hr, ⟨hd, _, hw, hs⟩, rfl⟩
        simpa [startsWord] using hb
    | number hb hw hr hn => exact ⟨hne, hw, by simpa [startsWord] using hb, hr, hn, rfl⟩
  · rintro ⟨hne, hall, hb, hr, haccepts, rfl⟩
    have hstarts : startsWord before = true := by simp [startsWord, hb]
    cases p with
    | comment | directive | label | arrayIndex | operator => exact hp.elim
    | keyword words =>
        obtain ⟨hd, w, hw, hs⟩ := haccepts
        refine .keyword hstarts hd (by rwa [hp.1]) hs hr fun v hv hstands => ?_
        rw [hp.1] at hv
        -- only whole words stand here, and there is but one
        obtain ⟨taken', rest', he, hs', hr'⟩ := standsAt_iff.mp hstands
        have hrun := takeWhile_run (forall_isWord_of_sameLetters (hp.2 v hv).2 hs') hr'
        rw [← he, takeWhile_run hall hr] at hrun
        rw [length_of_sameLetters hs', length_of_sameLetters hs, hrun]
    | number => exact .number hstarts hall hr haccepts

theorem startsWord_of_blanks (hl : startsLine before = true) (hs : IsBlanks s) :
    (charBefore before s).any isWord = false := by
  rcases List.eq_nil_or_concat' s with rfl | ⟨s, c, rfl⟩
  · cases before with
    | none => rfl
    | some c =>
        obtain rfl : c = '\n' := by simpa [startsLine] using hl
        rfl
  · rw [charBefore_append]
    exact isWord_of_isBlank (hs c (by simp))

theorem stops_of_onLine (h : Stops onLine rest) : Stops isWord rest := by
  cases rest with
  | nil => exact stops_nil
  | cons c rest =>
      have hc : c = '\n' ∨ c = '\r' := by simpa [onLine, imp_iff_not_or] using h
      rcases hc with rfl | rfl
      · exact stops_cons.mpr rfl
      · exact stops_cons.mpr rfl

theorem Takes.breaksAt_start (h : Takes p before taken rest part) :
    BreaksAt before (taken ++ rest) 0 := by
  apply (breaksAt_iff (List.nil_append _).symm rfl).mpr
  cases h with
  | lineComment ho => rcases ho with rfl | rfl <;> exact .inr rfl
  | blockComment | openComment | arrayIndex => exact .inr rfl
  | directive hl | label hl | publicLabel hl =>
      exact .inl (startsWord_of_blanks hl fun _ hc => nomatch hc)
  | operator hs => rcases hs with rfl | rfl | rfl <;> exact .inr rfl
  | keyword hb | number hb => exact .inl (by simpa [startsWord] using hb)

theorem Takes.breaksAt_stop (h : Takes p before taken rest part) :
    BreaksAt before (taken ++ rest) taken.length := by
  apply (breaksAt_iff rfl rfl).mpr
  cases h with
  | lineComment _ _ hr => exact .inr (stops_of_onLine hr)
  | @blockComment _ body =>
      have hlast : '/' :: '*' :: (body ++ ['*', '/']) = '/' :: '*' :: (body ++ ['*']) ++ ['/'] := by
        simp
      exact .inl (by rw [hlast, charBefore_append]; rfl)
  | openComment => exact .inr stops_nil
  | directive _ _ _ hr | keyword _ _ _ _ hr | number _ _ hr => exact .inr hr
  | label => exact .inl (by rw [charBefore_append, charBefore_append]; rfl)
  | publicLabel => exact .inl (by simp only [charBefore_append]; rfl)
  | arrayIndex => exact .inl (by rw [charBefore_cons, charBefore_append]; rfl)
  | operator hs => rcases hs with rfl | rfl | rfl <;> exact .inl rfl

theorem Takes.breaksAt_part {inner : Span} (h : Takes p before taken rest (some inner)) :
    BreaksAt before (taken ++ rest) inner.start ∧ BreaksAt before (taken ++ rest) inner.stop := by
  have hpublic : "public".toList.length = 6 := rfl
  cases h with
  | @directive _ _ indent name rest hl hi hw hr =>
      constructor
      · apply (breaksAt_iff (s := indent) (List.append_assoc _ _ _) rfl).mpr
        exact .inl (startsWord_of_blanks hl hi)
      · apply (breaksAt_iff rfl (by rw [length_append_cons])).mpr
        exact .inr hr
  | @label _ indent name rest hl hi =>
      constructor
      · apply (breaksAt_iff (s := indent) (List.append_assoc _ _ _) rfl).mpr
        exact .inl (startsWord_of_blanks hl hi)
      · apply (breaksAt_iff (s := indent ++ name) (t := ':' :: rest) (by simp) (by simp)).mpr
        exact .inr rfl
  | @publicLabel _ indent gap name rest hl hi hg hne =>
      constructor
      · apply (breaksAt_iff (s := indent ++ ("public".toList ++ gap)) (t := name ++ ':' :: rest)
          (by simp) (by simp only [List.length_append, hpublic])).mpr
        obtain ⟨gap, c, rfl⟩ := (List.eq_nil_or_concat' gap).resolve_left hne
        rw [← List.append_assoc, ← List.append_assoc, charBefore_append]
        exact .inl (isWord_of_isBlank (hg c (by simp)))
      · apply (breaksAt_iff (s := indent ++ ("public".toList ++ (gap ++ name))) (t := ':' :: rest)
          (by simp) (by simp only [List.length_append, hpublic, Nat.add_assoc])).mpr
        exact .inr rfl
  | @arrayIndex _ inner rest =>
      constructor
      · exact (breaksAt_iff (s := ['[']) rfl rfl).mpr (.inl rfl)
      · exact (breaksAt_iff (s := '[' :: inner) (t := ']' :: rest) (by simp) rfl).mpr (.inr rfl)

end Pattern

end PioSyntax

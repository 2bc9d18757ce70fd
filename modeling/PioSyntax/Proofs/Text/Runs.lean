import PioSyntax.Text
import PioSyntax.Text.WordChar

namespace PioSyntax.Text

/-- A run of characters that satisfy `p` cannot go on in `text`. -/
def Stops (p : Char → Bool) (text : Text) : Prop := text.head?.any p = false

variable {p : Char → Bool} {s t : Text} {c : Char}

@[simp] theorem stops_nil : Stops p [] := rfl

@[simp] theorem stops_cons : Stops p (c :: s) ↔ p c = false := by simp [Stops]

theorem stops_append_cons (hc : p c = false) : Stops p (s ++ c :: t) ↔ Stops p s := by
  cases s with
  | nil => simp [hc]
  | cons d s => simp

theorem stops_append (ht : Stops p t) : Stops p (s ++ t) ↔ Stops p s := by
  cases s with
  | nil => exact iff_of_true ht stops_nil
  | cons c s => simp

theorem not_mem_of_forall (h : ∀ d ∈ s, p d = true) (hc : p c = false) : c ∉ s := fun hm => by
  simpa [hc] using h c hm

theorem exists_run (p : Char → Bool) (text : Text) :
    ∃ s t, text = s ++ t ∧ (∀ c ∈ s, p c = true) ∧ Stops p t := by
  refine ⟨text.takeWhile p, text.dropWhile p, List.takeWhile_append_dropWhile.symm, ?_, ?_⟩
  · intro c hc
    exact List.all_eq_true.mp List.all_takeWhile c hc
  · have h := List.head?_dropWhile_not p text
    cases hd : text.dropWhile p with
    | nil => exact stops_nil
    | cons c t => simpa [hd] using h

theorem takeWhile_run (hs : ∀ c ∈ s, p c = true) (ht : Stops p t) :
    (s ++ t).takeWhile p = s := by
  rw [List.takeWhile_append_of_pos hs]
  cases t with
  | nil => simp
  | cons c t => simp [stops_cons.mp ht]

theorem dropWhile_run (hs : ∀ c ∈ s, p c = true) (ht : Stops p t) :
    (s ++ t).dropWhile p = t := by
  rw [List.dropWhile_append_of_pos hs]
  cases t with
  | nil => rfl
  | cons c t => simp [stops_cons.mp ht]

theorem takeWhile_append_cons (hc : p c = false) : (s ++ c :: t).takeWhile p = s.takeWhile p := by
  obtain ⟨run, rest, rfl, hrun, hr⟩ := exists_run p s
  rw [List.append_assoc, takeWhile_run hrun ((stops_append_cons hc).mpr hr), takeWhile_run hrun hr]

theorem exists_stop (h : (s.takeWhile p).length < s.length) :
    ∃ c t, s = s.takeWhile p ++ c :: t ∧ p c = false := by
  have hhead := List.head?_dropWhile_not p s
  have hs : s = s.takeWhile p ++ s.dropWhile p := List.takeWhile_append_dropWhile.symm
  cases hd : s.dropWhile p with
  | nil =>
      rw [hd, List.append_nil] at hs
      rw [← hs] at h
      exact absurd h (Nat.lt_irrefl _)
  | cons c t => exact ⟨c, t, hd ▸ hs, by simpa [hd] using hhead⟩

theorem isBlank_iff : isBlank c = true ↔ c = ' ' ∨ c = '\t' := by simp [isBlank]

theorem isBlank_of_isNameStart (h : isNameStart c = true) : isBlank c = false := by
  apply Bool.eq_false_iff.mpr
  intro hb
  rcases isBlank_iff.mp hb with rfl | rfl
  · exact absurd h (by decide)
  · exact absurd h (by decide)

theorem isWord_of_isBlank (h : isBlank c = true) : isWord c = false := by
  rcases isBlank_iff.mp h with rfl | rfl <;> decide

theorem toNat_lt_of_isAlpha (h : c.isAlpha = true) : c.toNat < 0x80 := by
  change c.val.toNat < 0x80
  rcases Bool.or_eq_true_iff.mp h with hupper | hlower
  · have hle : c.val ≤ 'Z'.val := (of_decide_eq_true hupper).2
    exact Nat.lt_of_le_of_lt (UInt32.le_iff_toNat_le.mp hle) (by decide)
  · have hle : c.val ≤ 'z'.val := of_decide_eq_true (Bool.and_eq_true_iff.mp hlower).2
    exact Nat.lt_of_le_of_lt (UInt32.le_iff_toNat_le.mp hle) (by decide)

theorem isWord_of_isNameStart (h : isNameStart c = true) : isWord c = true := by
  simp only [isNameStart, Bool.or_eq_true, beq_iff_eq] at h
  rcases h with h | rfl
  · simp [isWord, toNat_lt_of_isAlpha h, isAsciiWord, Char.isAlphanum, h]
  · decide

def IsBlanks (text : Text) : Prop := ∀ c ∈ text, isBlank c = true

theorem blanks_run (hs : IsBlanks s) (ht : Stops isBlank t) :
    blanks (s ++ t) = s.length := by
  rw [blanks, takeWhile_run hs ht]

theorem length_append_cons (s t : Text) : (s ++ c :: t).length = s.length + 1 + t.length := by
  rw [List.length_append, List.length_cons]
  omega

theorem splitOn_eq (c : Char) (text : Text) : splitOn c text = List.splitOn c text := by
  induction text with
  | nil => simp [splitOn]
  | cons d text ih =>
      rw [splitOn, List.splitOn_cons_eq_if_modifyHead, ih]
      by_cases hd : d = c
      · simp [hd]
      · cases hs : List.splitOn c text with
        | nil => exact absurd hs (List.splitOn_ne_nil c text)
        | cons piece pieces => simp [hd]

theorem lines_eq_singleton (hs : '\n' ∉ s) : lines s = [s] := by
  rw [lines, splitOn_eq, List.splitOn_eq_singleton hs]

theorem lines_append (s t : Text) : lines (s ++ '\n' :: t) = lines s ++ lines t := by
  simp only [lines, splitOn_eq, List.splitOn_append_cons_self]

@[elab_as_elim]
theorem line_induction {motive : Text → Prop}
    (last : ∀ line : Text, '\n' ∉ line → motive line)
    (cons : ∀ line text : Text, '\n' ∉ line → motive text → motive (line ++ '\n' :: text))
    (text : Text) : motive text := by
  obtain ⟨line, rest, he, hl, hr⟩ := exists_run (· != '\n') text
  have hn : '\n' ∉ line := fun h => by simpa using hl _ h
  cases rest with
  | nil =>
      rw [he, List.append_nil]
      exact last line hn
  | cons c rest =>
      have hc : c = '\n' := by simpa using hr
      rw [he, hc]
      exact cons line rest hn (line_induction last cons rest)
termination_by text.length
decreasing_by
  rw [he, List.length_append, List.length_cons]
  omega

theorem mem_of_mem_splitOn {separator : Char} {piece : Text} (h : piece ∈ splitOn separator t)
    (hc : c ∈ piece) : c ∈ t := by
  induction t generalizing piece with
  | nil =>
      obtain rfl := List.mem_singleton.mp h
      exact hc
  | cons d t ih =>
      rw [splitOn] at h
      split at h
      · rcases List.mem_cons.mp h with rfl | h
        · cases hc
        · exact List.mem_cons_of_mem d (ih h hc)
      · split at h
        · obtain rfl := List.mem_singleton.mp h
          exact List.mem_singleton.mp hc ▸ List.mem_cons_self
        · next first pieces hs =>
            rcases List.mem_cons.mp h with rfl | h
            · rcases List.mem_cons.mp hc with rfl | hc
              · exact List.mem_cons_self
              · exact List.mem_cons_of_mem d (ih (hs ▸ List.mem_cons_self) hc)
            · exact List.mem_cons_of_mem d (ih (hs ▸ List.mem_cons_of_mem first h) hc)

theorem mem_join {separator : Text} {pieces : List Text} (h : c ∈ join separator pieces) :
    c ∈ separator ∨ ∃ piece ∈ pieces, c ∈ piece := by
  induction pieces with
  | nil => cases h
  | cons piece pieces ih =>
      cases pieces with
      | nil => exact .inr ⟨piece, by simp, by simpa [join] using h⟩
      | cons next pieces =>
          rw [join, List.intercalate_cons_cons, List.mem_append, List.mem_append] at h
          rcases h with (h | h) | h
          · exact .inr ⟨piece, by simp, h⟩
          · exact .inl h
          · refine (ih h).imp_right ?_
            rintro ⟨other, ho, hc⟩
            exact ⟨other, List.mem_cons_of_mem piece ho, hc⟩

theorem join_lines (text : Text) : join ['\n'] (lines text) = text := by
  rw [join, lines, splitOn_eq, List.intercalate_splitOn]

theorem not_mem_of_mem_lines {line text : Text} (h : line ∈ lines text) : '\n' ∉ line := by
  induction text using line_induction with
  | last s hs =>
      rw [lines_eq_singleton hs, List.mem_singleton] at h
      rwa [h]
  | cons s text hs ih =>
      rw [lines_append, lines_eq_singleton hs, List.singleton_append, List.mem_cons] at h
      rcases h with rfl | h
      · exact hs
      · exact ih h

/-- Texts without a line feed that are followed by the end or a line feed are the same when all of
it is. -/
theorem line_unique {s' t' : Text} (hs : '\n' ∉ s) (hs' : '\n' ∉ s')
    (ht : Stops (· != '\n') t) (ht' : Stops (· != '\n') t') (h : s ++ t = s' ++ t') :
    s = s' ∧ t = t' := by
  have hp {s : Text} (hs : '\n' ∉ s) : ∀ c ∈ s, (c != '\n') = true := by
    intro c hc
    simpa using fun he : c = '\n' => hs (he ▸ hc)
  have hline := congrArg (List.takeWhile (· != '\n')) h
  rw [takeWhile_run (hp hs) ht, takeWhile_run (hp hs') ht'] at hline
  subst hline
  exact ⟨rfl, List.append_cancel_left h⟩

theorem exists_append_cons {u v : Text} {d : Char} (h : s ++ d :: t = u ++ c :: v) (hc : d ≠ c)
    (hlen : u.length ≤ s.length) : ∃ w, s = u ++ c :: w ∧ v = w ++ d :: t := by
  rcases List.append_eq_append_iff.mp h with ⟨w, rfl, hw⟩ | ⟨w, rfl, hw⟩
  · rw [List.length_append] at hlen
    obtain rfl : w = [] := List.length_eq_zero_iff.mp (by omega)
    exact absurd (List.cons.inj hw).1 hc
  · cases w with
    | nil => exact absurd (List.cons.inj hw).1.symm hc
    | cons e w =>
        obtain ⟨rfl, rfl⟩ := List.cons.inj hw
        exact ⟨w, rfl, rfl⟩

/-- What stands before the text after `s`: its last character, or `before` if it is empty. -/
def charBefore (before : Option Char) (s : Text) : Option Char := s.getLast?.or before

@[simp] theorem charBefore_nil (before : Option Char) : charBefore before [] = before := rfl

@[simp] theorem charBefore_cons (before : Option Char) :
    charBefore before (c :: s) = charBefore (some c) s := by
  rw [charBefore, charBefore, List.getLast?_cons]
  cases s.getLast? <;> rfl

theorem charBefore_append (before : Option Char) :
    charBefore before (s ++ t) = charBefore (charBefore before s) t := by
  induction s generalizing before with
  | nil => rfl
  | cons c s ih => simp [ih]

end PioSyntax.Text

import Mathlib.Data.List.Basic
import PioSyntax.Proofs.Text.Between
import PioSyntax.Proofs.Text.Runs
import PioSyntax.Proofs.Token.Claim

namespace PioSyntax

open Text

/-- No word goes on across the offset `n` of a text that stands after the character `before`. -/
def Text.BreaksAt (before : Option Char) (text : Text) (n : Nat) : Prop :=
  (charBefore before (text.take n)).any isWord = false ∨ Stops isWord (text.drop n)

structure Span.IsWord (source : Text) (s : Span) : Prop where
  start_lt : s.start < s.stop
  stop_le : s.stop ≤ source.length
  all : ∀ c ∈ s.slice source, isWord c = true
  before : (source.take s.start).getLast?.any isWord = false
  after : Stops isWord (source.drop s.stop)

variable {source text s t pre word post : Text} {before : Option Char} {n a b : Nat} {c : Char}

namespace Text

theorem exists_append {u v : Text} (h : s ++ t = u ++ v) (hle : s.length ≤ u.length) :
    ∃ w, u = s ++ w ∧ t = w ++ v := by
  rcases List.append_eq_append_iff.mp h with hw | ⟨w, rfl, rfl⟩
  · exact hw
  · rw [List.length_append] at hle
    obtain rfl : w = [] := List.length_eq_zero_iff.mp (by omega)
    exact ⟨[], by simp, rfl⟩

theorem breaksAt_iff (htext : text = s ++ t) (hn : n = s.length) : BreaksAt before text n ↔
    (charBefore before s).any isWord = false ∨ Stops isWord t := by
  rw [htext, hn, BreaksAt, List.take_left, List.drop_left]

theorem breaksAt_append_right :
    BreaksAt before (s ++ t) (s.length + n) ↔ BreaksAt (charBefore before s) t n := by
  rw [BreaksAt, BreaksAt, List.take_length_add_append, List.drop_length_add_append,
    charBefore_append]

theorem breaksAt_append_left (h : n < s.length) :
    BreaksAt before (s ++ t) n ↔ BreaksAt before s n := by
  have hne : s.drop n ≠ [] := by
    rw [ne_eq, List.drop_eq_nil_iff]
    omega
  obtain ⟨c, rest, hrest⟩ := List.exists_cons_of_ne_nil hne
  rw [BreaksAt, BreaksAt, List.take_append_of_le_length (Nat.le_of_lt h),
    List.drop_append_of_le_length (Nat.le_of_lt h), hrest, List.cons_append, stops_cons, stops_cons]

theorem breaksAt_length (before : Option Char) (text : Text) : BreaksAt before text text.length :=
  (breaksAt_iff (List.append_nil text).symm rfl).mpr (.inr stops_nil)

/-- Where no word goes on in a part of a source, none goes on in the source. -/
theorem IsAt.breaksAt (h : IsAt source a text) (hn : n ≤ text.length)
    (hend : BreaksAt none source (a + text.length))
    (hb : BreaksAt (source.take a).getLast? text n) : BreaksAt none source (a + n) := by
  rcases Nat.eq_or_lt_of_le hn with rfl | hlt
  · exact hend
  · obtain ⟨pre, post, rfl, rfl⟩ := h
    rw [List.take_left] at hb
    rw [breaksAt_append_right, breaksAt_append_left hlt, charBefore, Option.or_none]
    exact hb

theorem IsAt.slice_middle (h : IsAt source a (pre ++ (word ++ post))) :
    Span.slice ⟨a + pre.length, a + pre.length + word.length⟩ source = word := by
  obtain ⟨first, last, rfl, hfirst⟩ := h.right
  rw [hfirst, Span.slice, List.append_assoc, between_middle]

theorem IsAt.getLast?_take (h : IsAt source a (s ++ t)) :
    (source.take (a + s.length)).getLast? = charBefore (source.take a).getLast? s := by
  rw [h.take, List.getLast?_append, charBefore]

end Text

namespace Span

variable {w v : Span}

theorem isWord_iff : w.IsWord source ↔ ∃ pre word post, source = pre ++ (word ++ post) ∧
    w = ⟨pre.length, pre.length + word.length⟩ ∧ word ≠ [] ∧ (∀ c ∈ word, Text.isWord c = true) ∧
    pre.getLast?.any Text.isWord = false ∧ Stops Text.isWord post := by
  constructor
  · rintro ⟨hlt, hle, hall, hbefore, hafter⟩
    have hlen := length_between (a := w.start) hle
    refine ⟨source.take w.start, w.slice source, source.drop w.stop, ?_, ?_, ?_, hall, hbefore,
      hafter⟩
    · rw [slice, between, ← Nat.add_sub_cancel' (Nat.le_of_lt hlt), Nat.add_sub_cancel_left,
        ← List.drop_drop, List.take_append_drop, List.take_append_drop]
    · rw [slice, hlen, List.length_take, Nat.min_eq_left (by omega),
        Nat.add_sub_cancel' (Nat.le_of_lt hlt)]
    · apply List.ne_nil_of_length_pos
      rw [slice, hlen]
      omega
  · rintro ⟨pre, word, post, rfl, rfl, hne, hall, hbefore, hafter⟩
    have hpos := List.length_pos_iff.mpr hne
    refine ⟨Nat.lt_add_of_pos_right hpos, ?_, ?_, ?_, ?_⟩
    · simp only [List.length_append]
      omega
    · rwa [slice, between_middle]
    · rwa [List.take_left]
    · rwa [← List.append_assoc, ← List.length_append, List.drop_left]

namespace IsWord

theorem breaksAt_start (h : w.IsWord source) : BreaksAt none source w.start := by
  rw [BreaksAt, charBefore, Option.or_none]
  exact .inl h.before

theorem breaksAt_stop (h : w.IsWord source) : BreaksAt none source w.stop := .inr h.after

theorem not_breaksAt (h : w.IsWord source) (hn : w.start < n) (hn' : n < w.stop) :
    ¬ BreaksAt none source n := by
  have hle := h.stop_le
  have hword {i : Nat} (hi : w.start ≤ i) (hi' : i < w.stop) : source[i]?.any Text.isWord = true := by
    have hlt : i < source.length := by omega
    rw [List.getElem?_eq_getElem hlt, Option.any_some]
    exact h.all _ (mem_between_iff.mpr ⟨i, hi, hi', List.getElem?_eq_getElem hlt⟩)
  have hlast : (source.take n).getLast? = source[n - 1]? := by
    rw [List.getLast?_take, if_neg (by omega), List.getElem?_eq_getElem (by omega), Option.some_or]
  rw [BreaksAt, charBefore, Option.or_none, hlast, hword (by omega) (by omega), Stops,
    List.head?_drop, hword (by omega) hn']
  simp

/-- A stretch that does not cut words holds every word that it meets. -/
theorem within (h : w.IsWord source) (hs : BreaksAt none source v.start)
    (ht : BreaksAt none source v.stop) (ho : w.Overlaps v) :
    v.start ≤ w.start ∧ w.stop ≤ v.stop := by
  obtain ⟨hlt, hlt', -, -⟩ := overlaps_iff.mp ho
  constructor
  · exact Nat.le_of_not_lt fun hlow => h.not_breaksAt hlow hlt' hs
  · exact Nat.le_of_not_lt fun hhigh => h.not_breaksAt hlt hhigh ht

theorem eq_of_overlaps (h : w.IsWord source) (h' : v.IsWord source) (ho : w.Overlaps v) :
    w = v := by
  obtain ⟨h₁, h₂⟩ := h.within h'.breaksAt_start h'.breaksAt_stop ho
  obtain ⟨i, hi, hi'⟩ := ho
  obtain ⟨h₃, h₄⟩ := h'.within h.breaksAt_start h.breaksAt_stop ⟨i, hi', hi⟩
  cases w
  cases v
  congr
  · exact Nat.le_antisymm h₃ h₁
  · exact Nat.le_antisymm h₂ h₄

end IsWord

end Span

theorem Text.IsAt.isWord_iff {w : Span} (h : IsAt source a text)
    (hend : BreaksAt none source (a + text.length)) :
    w.IsWord source ∧ a ≤ w.start ∧ w.stop ≤ a + text.length ↔
      ∃ pre word rest, text = pre ++ (word ++ rest) ∧
        w = ⟨a + pre.length, a + pre.length + word.length⟩ ∧ word ≠ [] ∧
        (∀ c ∈ word, isWord c = true) ∧
        (charBefore (source.take a).getLast? pre).any isWord = false ∧ Stops isWord rest := by
  obtain ⟨first, last, rfl, rfl⟩ := h
  rw [Span.isWord_iff, List.take_left]
  have hbefore (pre : Text) : charBefore first.getLast? pre = (first ++ pre).getLast? := by
    rw [List.getLast?_append, charBefore]
  constructor
  · rintro ⟨⟨pre, word, post, he, rfl, hne, hall, hb, hs⟩, hstart, hstop⟩
    obtain ⟨pre, rfl, htext⟩ := exists_append he hstart
    dsimp only at hstop
    rw [List.length_append] at hstop
    rw [← List.append_assoc] at htext
    obtain ⟨rest, rfl, rfl⟩ := exists_append htext.symm (by rw [List.length_append]; omega)
    refine ⟨pre, word, rest, List.append_assoc _ _ _, ?_, hne, hall, ?_, ?_⟩
    · rw [List.length_append]
    · rwa [hbefore]
    · cases rest with
      | nil => exact stops_nil
      | cons c rest => exact hs
  · rintro ⟨pre, word, rest, rfl, rfl, hne, hall, hb, hs⟩
    refine ⟨⟨first ++ pre, word, rest ++ last, by simp, by simp, hne, hall, ?_, ?_⟩, ?_, ?_⟩
    · rwa [← hbefore]
    · cases rest with
      | cons c rest => exact hs
      | nil =>
          -- the word ends where the part ends, and does not go on after it
          obtain ⟨word, c, rfl⟩ := (List.eq_nil_or_concat' word).resolve_left hne
          have hc := hall c (by simp)
          rw [List.append_nil] at hend
          rw [breaksAt_append_right, breaksAt_iff rfl rfl, charBefore_append, charBefore_append] at hend
          exact hend.resolve_left (by simp [hc])
    · exact Nat.le_add_right _ _
    · simp only [List.length_append]
      omega

end PioSyntax

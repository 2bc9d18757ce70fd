import Mathlib.Data.Int.ConditionallyCompleteOrder
import Mathlib.Data.Nat.SuccPred
import Mathlib.Data.Prod.Lex
import Mathlib.Order.Interval.Set.Monotone
import PioSyntax.Proofs.SemanticTokens.Pieces
import PioSyntax.Proofs.Text.Between

namespace PioSyntax

open Text

structure Text.IsLineStart (source : Text) (offset start : Nat) : Prop where
  le : start ≤ offset
  edge : start = 0 ∨ source[start - 1]? = some '\n'
  line : ∀ i, start ≤ i → i < offset → source[i]? ≠ some '\n'

variable {e : Encoding} {source : Text} {n start : Nat} {c : Char}

theorem Text.IsLineStart.succ (h : source.IsLineStart n start) (hn : source[n]? ≠ some '\n') :
    source.IsLineStart (n + 1) start := by
  refine ⟨Nat.le_succ_of_le h.le, h.edge, fun i hs hi => ?_⟩
  rcases Nat.lt_succ_iff_lt_or_eq.mp hi with hi | rfl
  · exact h.line i hs hi
  · exact hn

theorem Text.between_succ (source : Text) (n : Nat) :
    source.between n (n + 1) = source[n]?.toList := by
  rw [between, Nat.add_sub_cancel_left, List.take_one, List.head?_drop]

theorem Text.length_lines (source : Text) : source.lines.length = source.count '\n' + 1 := by
  induction source using line_induction with
  | last line hl =>
      rw [lines_eq_singleton hl, List.count_eq_zero_of_not_mem hl, List.length_singleton]
  | cons line source hl ih =>
      rw [lines_append, lines_eq_singleton hl, List.length_append, ih, List.count_append,
        List.count_eq_zero_of_not_mem hl, List.count_cons_self, List.length_singleton]
      omega

namespace LineIndex

theorem position_zero (source : Text) : (ofText source).position (0 : Nat) = ⟨1, 1, 0⟩ := by
  rw [position_eq]
  rfl

theorem position_succ_newline (hn : source[n]? = some '\n') :
    (ofText source).position (n + 1 : Nat) =
      ⟨((ofText source).position n).line + 1, 1, (n + 1 : Nat)⟩ := by
  obtain ⟨hlt, -⟩ := List.getElem?_eq_some_iff.mp hn
  have htake : source.take (n + 1) = source.take n ++ ['\n'] := by
    rw [List.take_add_one, hn, Option.toList_some]
  rw [position_of_le hlt, position_of_le hlt.le, htake, lastLine_append_newline, List.count_append]
  rfl

theorem position_succ (hn : source[n]? ≠ some '\n') :
    (ofText source).position (n + 1 : Nat) =
      ⟨((ofText source).position n).line, ((ofText source).position n).column + 1,
        (n + 1 : Nat)⟩ := by
  have hnext : '\n' ∉ source[n]?.toList := fun h => hn (Option.mem_toList.mp h)
  rw [position_eq, position_eq, List.take_add_one, lastLine_append hnext, List.count_append,
    List.count_eq_zero_of_not_mem hnext, List.length_append, List.length_append,
    Nat.add_sub_add_right]
  congr 1
  dsimp only
  omega

end LineIndex

namespace Encoding

theorem column_zero (e : Encoding) (source : Text) :
    e.column source ((LineIndex.ofText source).position (0 : Nat)) = 0 := by
  rw [column_position (Nat.zero_le _)]
  rfl

theorem column_succ_newline (hn : source[n]? = some '\n') :
    e.column source ((LineIndex.ofText source).position (n + 1 : Nat)) = 0 := by
  obtain ⟨hlt, -⟩ := List.getElem?_eq_some_iff.mp hn
  rw [column_position hlt, List.take_add_one, hn, Option.toList_some, lastLine_append_newline]
  rfl

theorem column_succ (hn : source[n]? = some c) (hc : c ≠ '\n') :
    e.column source ((LineIndex.ofText source).position (n + 1 : Nat)) =
      e.column source ((LineIndex.ofText source).position n) + e.width c := by
  obtain ⟨hlt, -⟩ := List.getElem?_eq_some_iff.mp hn
  have hnext : '\n' ∉ [c] := by simpa using hc.symm
  rw [column_position hlt, column_position hlt.le, List.take_add_one, hn, Option.toList_some,
    lastLine_append hnext, units_append]
  rfl

end Encoding

namespace LineIndex

/-- Columns count from where the line starts, in characters and in the units of a client. -/
theorem exists_isLineStart (e : Encoding) (source : Text) (n : Nat) :
    ∃ start, source.IsLineStart n start ∧
      ((ofText source).position n).column = (n : Int) - start + 1 ∧
      (n ≤ source.length →
        e.column source ((ofText source).position n) = e.units (source.between start n)) := by
  induction n with
  | zero =>
      refine ⟨0, ⟨Nat.le_refl 0, .inl rfl, fun i _ hi => absurd hi (Nat.not_lt_zero i)⟩, ?_, ?_⟩
      · rw [position_zero]
        rfl
      · intro _
        rw [Encoding.column_zero, between_self]
        rfl
  | succ n ih =>
      by_cases hn : source[n]? = some '\n'
      · have hstart : source.IsLineStart (n + 1) (n + 1) :=
          ⟨Nat.le_refl _, .inr hn, fun i hs hi => absurd hi (Nat.not_lt.mpr hs)⟩
        refine ⟨n + 1, hstart, ?_, ?_⟩
        · rw [position_succ_newline hn]
          dsimp only
          omega
        · intro _
          rw [Encoding.column_succ_newline hn, between_self]
          rfl
      · obtain ⟨start, hstart, hcolumn, hunits⟩ := ih
        refine ⟨start, hstart.succ hn, ?_, fun hle => ?_⟩
        · rw [position_succ hn]
          dsimp only
          omega
        · obtain ⟨c, hc⟩ : ∃ c, source[n]? = some c := ⟨source[n], List.getElem?_eq_getElem hle⟩
          have hne : c ≠ '\n' := fun he => hn (he ▸ hc)
          rw [Encoding.column_succ hc hne, hunits (Nat.le_of_succ_le hle),
            between_eq_append hstart.le (Nat.le_succ n), Encoding.units_append, between_succ, hc]
          rfl

theorem line_eq (source : Text) (n : Nat) :
    ((ofText source).position n).line = (source.take n).count '\n' + 1 := by
  rw [position_eq]

theorem position_strictMono (source : Text) : StrictMono fun n : Nat =>
    toLex (((ofText source).position n).line, ((ofText source).position n).column) := by
  apply strictMono_nat_of_lt_succ
  intro n
  rw [Prod.Lex.toLex_lt_toLex]
  by_cases hn : source[n]? = some '\n'
  · rw [position_succ_newline hn]
    exact .inl (Nat.lt_succ_self _)
  · rw [position_succ hn]
    exact .inr ⟨rfl, Int.lt_succ _⟩

theorem clientPosition_strictMonoOn (e : Encoding) (source : Text) : StrictMonoOn (fun n : Nat =>
    toLex (((ofText source).position n).line, e.column source ((ofText source).position n)))
      (Set.Iic source.length) := by
  apply strictMonoOn_Iic_of_lt_succ
  intro n hn
  obtain ⟨c, hc⟩ : ∃ c, source[n]? = some c := ⟨source[n], List.getElem?_eq_getElem hn⟩
  rw [Prod.Lex.toLex_lt_toLex, Order.succ_eq_add_one]
  by_cases hne : c = '\n'
  · subst hne
    rw [position_succ_newline hc]
    exact .inl (Nat.lt_succ_self _)
  · have hother : source[n]? ≠ some '\n' := fun h => hne (Option.some.inj (hc.symm.trans h))
    rw [Encoding.column_succ hc hne, position_succ hother]
    exact .inr ⟨rfl, Nat.lt_add_of_pos_right (e.width_pos c)⟩

/-- Positions are exact and in the order of the offsets. The line is one more than the line feeds
before the offset, and both columns count from where that line starts, so line and column grow with
the offset, and line and client column with every offset up to the end, which they determine. Beyond
the end the line is the last one. -/
theorem position_exact (e : Encoding) (source : Text) :
    (∀ n : Nat, ((ofText source).position n).line = (source.take n).count '\n' + 1 ∧
      ∃ start, source.IsLineStart n start ∧
        ((ofText source).position n).column = (n : Int) - start + 1 ∧
        (n ≤ source.length →
          e.column source ((ofText source).position n) = e.units (source.between start n))) ∧
    StrictMono (fun n : Nat =>
      toLex (((ofText source).position n).line, ((ofText source).position n).column)) ∧
    StrictMonoOn (fun n : Nat =>
      toLex (((ofText source).position n).line, e.column source ((ofText source).position n)))
        (Set.Iic source.length) ∧
    Set.InjOn (fun n : Nat =>
      (((ofText source).position n).line, e.column source ((ofText source).position n)))
        (Set.Iic source.length) ∧
    ∀ n, source.length ≤ n → ((ofText source).position n).line = source.lines.length := by
  refine ⟨fun n => ⟨line_eq source n, exists_isLineStart e source n⟩,
    position_strictMono source, clientPosition_strictMonoOn e source,
    (clientPosition_strictMonoOn e source).injOn, fun n hn => ?_⟩
  rw [line_eq, List.take_of_length_le hn, length_lines]

example : Encoding.utf16.column "a\n𐐀b" ((ofText "a\n𐐀b").position 3) = 2 := by decide

end LineIndex

end PioSyntax

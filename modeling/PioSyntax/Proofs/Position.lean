import PioSyntax.Position
import PioSyntax.Proofs.Text.LastLine

namespace PioSyntax

namespace LineIndex

open Text

variable {s t source : Text} {offset n : Nat}

theorem startsFrom_append (s t : Text) :
    startsFrom offset (s ++ t) = startsFrom offset s ++ startsFrom (offset + s.length) t := by
  induction s generalizing offset with
  | nil => rfl
  | cons c s ih =>
      have hlen : offset + (c :: s).length = offset + 1 + s.length := by
        rw [List.length_cons]
        omega
      simp only [List.cons_append, startsFrom, ih, hlen]
      split <;> rfl

theorem mem_startsFrom (h : n ∈ startsFrom offset s) : offset < n ∧ n ≤ offset + s.length := by
  induction s generalizing offset with
  | nil => cases h
  | cons c s ih =>
      have hlater : n ∈ startsFrom (offset + 1) s → offset < n ∧ n ≤ offset + (c :: s).length := by
        intro h
        have := ih h
        rw [List.length_cons]
        omega
      rw [startsFrom] at h
      split at h
      · rcases List.mem_cons.mp h with rfl | h
        · rw [List.length_cons]
          omega
        · exact hlater h
      · exact hlater h

theorem length_startsFrom : (startsFrom offset s).length = s.count '\n' := by
  induction s generalizing offset with
  | nil => rfl
  | cons c s ih =>
      rw [startsFrom]
      by_cases hc : c = '\n'
      · rw [if_pos hc, hc, List.count_cons_self, List.length_cons, ih]
      · rw [if_neg hc, List.count_cons_of_ne hc, ih]

theorem getLast?_starts (s : Text) :
    (0 :: startsFrom 0 s).getLast? = some (s.length - (lastLine s).length) := by
  induction s using List.reverseRecOn with
  | nil => rfl
  | append_singleton s c ih =>
      rw [startsFrom_append, ← List.cons_append]
      by_cases hc : c = '\n'
      · subst hc
        have hnext : startsFrom (0 + s.length) ['\n'] = [s.length + 1] := by simp [startsFrom]
        rw [hnext, List.getLast?_concat, lastLine_append_newline, List.length_append]
        rfl
      · rw [lastLine_append (by simpa using Ne.symm hc)]
        simpa [startsFrom, hc] using ih

theorem reached_eq (source : Text) (n : Nat) :
    (ofText source).starts.takeWhile (fun start : Nat => (start : Int) ≤ n) =
      0 :: startsFrom 0 (source.take n) := by
  have hsplit : startsFrom 0 source =
      startsFrom 0 (source.take n) ++ startsFrom (source.take n).length (source.drop n) := by
    rw [← Nat.zero_add (source.take n).length, ← startsFrom_append, List.take_append_drop]
  have hbefore : ∀ start ∈ 0 :: startsFrom 0 (source.take n), decide ((start : Int) ≤ n) = true := by
    intro start hs
    rw [decide_eq_true_eq]
    rcases List.mem_cons.mp hs with rfl | hs
    · omega
    · have := mem_startsFrom hs
      rw [List.length_take] at this
      omega
  rw [ofText, hsplit, ← List.cons_append, List.takeWhile_append_of_pos hbefore]
  cases hd : startsFrom (source.take n).length (source.drop n) with
  | nil => exact List.append_nil _
  | cons start starts =>
      have hs := mem_startsFrom (hd ▸ List.mem_cons_self)
      rw [List.length_take, List.length_drop] at hs
      rw [List.takeWhile_cons_of_neg, List.append_nil]
      rw [decide_eq_true_eq]
      omega

theorem position_eq (source : Text) (n : Nat) :
    (ofText source).position n =
      ⟨(source.take n).count '\n' + 1,
        (n : Int) - ((source.take n).length - (lastLine (source.take n)).length : Nat) + 1, n⟩ := by
  rw [position, reached_eq, getLast?_starts, List.length_cons, length_startsFrom]
  rfl

theorem position_of_le (h : n ≤ source.length) :
    (ofText source).position n =
      ⟨(source.take n).count '\n' + 1, ((lastLine (source.take n)).length + 1 : Nat), n⟩ := by
  have hline : (lastLine (source.take n)).length ≤ (source.take n).length :=
    (List.rtakeWhile_suffix _ _).length_le
  rw [List.length_take, Nat.min_eq_left h] at hline
  rw [position_eq, List.length_take, Nat.min_eq_left h]
  congr 1
  omega

/-- The line of an offset starts where the text before it has its last line. -/
theorem getElem?_starts (source : Text) (n : Nat) :
    (ofText source).starts[(source.take n).count '\n']? =
      some ((source.take n).length - (lastLine (source.take n)).length) := by
  have hlast := getLast?_starts (source.take n)
  rw [List.getLast?_eq_getElem?, List.length_cons, length_startsFrom, Nat.add_sub_cancel] at hlast
  obtain ⟨starts, hs⟩ : 0 :: startsFrom 0 (source.take n) <+: (ofText source).starts :=
    reached_eq source n ▸ List.takeWhile_prefix _
  rw [← hs, List.getElem?_append_left, hlast]
  rw [List.length_cons, length_startsFrom]
  omega

end LineIndex

end PioSyntax

import Mathlib.Data.List.DropRight
import PioSyntax.Proofs.Text.Runs

namespace PioSyntax

namespace Text

def lastLine (text : Text) : Text := text.rtakeWhile (· != '\n')

def unlines (lines : List Text) : Text := lines.flatMap (· ++ ['\n'])

variable {s t line : Text} {c : Char} {ls : List Text}

theorem rtakeWhile_append_cons {p : Char → Bool} (hc : p c = false) :
    (s ++ c :: t).rtakeWhile p = t.rtakeWhile p := by
  simp only [List.rtakeWhile, List.reverse_append, List.reverse_cons, List.append_assoc,
    List.singleton_append]
  rw [takeWhile_append_cons hc]

theorem rtakeWhile_append {p : Char → Bool} (ht : ∀ c ∈ t, p c = true) :
    (s ++ t).rtakeWhile p = s.rtakeWhile p ++ t := by
  have ht' : ∀ c ∈ t.reverse, p c = true := fun c hc => ht c (List.mem_reverse.mp hc)
  rw [List.rtakeWhile, List.reverse_append, List.takeWhile_append_of_pos ht', List.reverse_append,
    List.reverse_reverse, List.rtakeWhile]

theorem lastLine_append_newline (s t : Text) : lastLine (s ++ '\n' :: t) = lastLine t :=
  rtakeWhile_append_cons rfl

theorem lastLine_eq_self (h : '\n' ∉ s) : lastLine s = s := by
  apply List.rtakeWhile_eq_self_iff.mpr
  intro c hc
  simpa using fun he : c = '\n' => h (he ▸ hc)

theorem lastLine_append (h : '\n' ∉ t) : lastLine (s ++ t) = lastLine s ++ t :=
  rtakeWhile_append fun c hc => by simpa using fun he : c = '\n' => h (he ▸ hc)

theorem exists_lastLine (s : Text) :
    ∃ t, s = t ++ lastLine s ∧ (t = [] ∨ ∃ u, t = u ++ ['\n']) := by
  induction s using line_induction with
  | last line hl => exact ⟨[], by rw [lastLine_eq_self hl, List.nil_append], .inl rfl⟩
  | cons line s hl ih =>
      obtain ⟨t, ht, hend⟩ := ih
      refine ⟨line ++ '\n' :: t, ?_, .inr ?_⟩
      · rw [lastLine_append_newline, List.append_assoc, List.cons_append, ← ht]
      · rcases hend with rfl | ⟨u, rfl⟩
        · exact ⟨line, rfl⟩
        · exact ⟨line ++ '\n' :: u, by simp⟩

theorem getElem?_lines (s t : Text) :
    (lines (s ++ t))[s.count '\n']? = some (lastLine s ++ t.takeWhile (· != '\n')) := by
  induction s using line_induction with
  | last line hl =>
      obtain ⟨run, rest, rfl, hrun, hr⟩ := exists_run (· != '\n') t
      have hn : '\n' ∉ run := fun h => by simpa using hrun _ h
      have hline : '\n' ∉ line ++ run := by simp [hl, hn]
      rw [List.count_eq_zero_of_not_mem hl, lastLine_eq_self hl, takeWhile_run hrun hr,
        ← List.append_assoc]
      cases rest with
      | nil => rw [List.append_nil, lines_eq_singleton hline, List.getElem?_cons_zero]
      | cons c rest =>
          obtain rfl : c = '\n' := by simpa using hr
          rw [lines_append, lines_eq_singleton hline, List.singleton_append,
            List.getElem?_cons_zero]
  | cons line s hl ih =>
      rw [List.append_assoc, List.cons_append, lines_append, lines_eq_singleton hl,
        List.singleton_append, List.count_append, List.count_eq_zero_of_not_mem hl,
        List.count_cons_self, Nat.zero_add, List.getElem?_cons_succ, lastLine_append_newline, ih]

theorem unlines_cons (line : Text) (ls : List Text) :
    unlines (line :: ls) = line ++ '\n' :: unlines ls := by
  rw [unlines, List.flatMap_cons, List.append_assoc]
  rfl

theorem lastLine_unlines (ls : List Text) : lastLine (unlines ls) = [] := by
  induction ls with
  | nil => rfl
  | cons line ls ih => rw [unlines_cons, lastLine_append_newline, ih]

theorem lastLine_drop (h : lastLine s = []) (n : Nat) : lastLine (s.drop n) = [] := by
  apply List.rtakeWhile_eq_nil_iff.mpr
  intro hne
  rw [List.getLast_drop]
  exact List.rtakeWhile_eq_nil_iff.mp h _

theorem lines_unlines_append (h : ∀ line ∈ ls, '\n' ∉ line) (s : Text) :
    lines (unlines ls ++ s) = ls ++ lines s := by
  induction ls with
  | nil => rfl
  | cons line ls ih =>
      rw [List.forall_mem_cons] at h
      rw [unlines_cons, List.append_assoc, List.cons_append, lines_append, lines_eq_singleton h.1,
        ih h.2, List.singleton_append, List.cons_append]

theorem exists_unlines (s : Text) :
    ∃ ls, (∀ line ∈ ls, '\n' ∉ line) ∧ s = unlines ls ++ lastLine s := by
  induction s using line_induction with
  | last line hl => exact ⟨[], by simp, by rw [lastLine_eq_self hl]; rfl⟩
  | cons line s hl ih =>
      obtain ⟨ls, hls, hs⟩ := ih
      refine ⟨line :: ls, List.forall_mem_cons.mpr ⟨hl, hls⟩, ?_⟩
      rw [unlines_cons, lastLine_append_newline, List.append_assoc, List.cons_append, ← hs]

theorem lastLine_eq_nil (h : s = [] ∨ s.getLast? = some '\n') : lastLine s = [] := by
  apply List.rtakeWhile_eq_nil_iff.mpr
  intro hne
  rcases h with rfl | h
  · exact absurd rfl hne
  · rw [List.getLast?_eq_some_getLast hne] at h
    simp [Option.some.inj h]

theorem not_mem_lastLine (s : Text) : '\n' ∉ lastLine s := fun h => by
  simpa using List.mem_rtakeWhile_imp h

end Text

end PioSyntax

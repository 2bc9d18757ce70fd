import PioSyntax.Proofs.ForeignBlock.LineBreak
import PioSyntax.Proofs.Text.LastLine

namespace PioSyntax.ForeignBlock

open Text Pattern

/-- What the reader with two states makes of lines that end with a line feed, and where it is after
them. -/
inductive Reads : Place → Nat → List Text → List ForeignBlock → Place → Prop
  | done {place : Place} {offset : Nat} : Reads place offset [] [] place
  | opened {offset : Nat} {line language : Text} {marker : Span} {lines : List Text}
      {blocks : List ForeignBlock} {last : Place} (h : OpeningLine line language marker)
      (rest : Reads (.inside language (marker.shift offset) (offset + line.length + 1))
        (offset + line.length + 1) lines blocks last) :
      Reads .outside offset (line :: lines) blocks last
  | ignored {offset : Nat} {line : Text} {lines : List Text} {blocks : List ForeignBlock}
      {last : Place} (h : ∀ language marker, ¬ OpeningLine line language marker)
      (rest : Reads .outside (offset + line.length + 1) lines blocks last) :
      Reads .outside offset (line :: lines) blocks last
  | closed {offset : Nat} {line language : Text} {head marker : Span} {start : Nat}
      {lines : List Text} {blocks : List ForeignBlock} {last : Place}
      (h : ClosingLine line marker)
      (rest : Reads .outside (offset + line.length + 1) lines blocks last) :
      Reads (.inside language head start) offset (line :: lines)
        (⟨language, head, ⟨start, offset⟩, some (marker.shift offset)⟩ :: blocks) last
  | kept {offset : Nat} {line language : Text} {head : Span} {start : Nat} {lines : List Text}
      {blocks : List ForeignBlock} {last : Place} (h : ∀ marker, ¬ ClosingLine line marker)
      (rest : Reads (.inside language head start) (offset + line.length + 1) lines blocks last) :
      Reads (.inside language head start) offset (line :: lines) blocks last

variable {place last : Place} {offset stop start : Nat} {lines lines' ls : List Text}
variable {blocks blocks' : List ForeignBlock} {line language P S s : Text} {head : Span}

theorem exists_reads (place : Place) (offset : Nat) (lines : List Text) :
    ∃ blocks last, Reads place offset lines blocks last := by
  induction lines generalizing place offset with
  | nil => exact ⟨[], place, .done⟩
  | cons line lines ih =>
      cases place with
      | outside =>
          by_cases h : ∃ language marker, OpeningLine line language marker
          · obtain ⟨language, marker, h⟩ := h
            obtain ⟨blocks, last, hr⟩ := ih _ _
            exact ⟨blocks, last, .opened h hr⟩
          · obtain ⟨blocks, last, hr⟩ := ih .outside (offset + line.length + 1)
            exact ⟨blocks, last, .ignored (by simpa using h) hr⟩
      | inside language head start =>
          by_cases h : ∃ marker, ClosingLine line marker
          · obtain ⟨marker, h⟩ := h
            obtain ⟨blocks, last, hr⟩ := ih .outside (offset + line.length + 1)
            exact ⟨_ :: blocks, last, .closed h hr⟩
          · obtain ⟨blocks, last, hr⟩ := ih (.inside language head start) (offset + line.length + 1)
            exact ⟨blocks, last, .kept (by simpa using h) hr⟩

theorem Reads.scans (h : Reads place offset lines blocks last)
    (hs : offset + linesSize lines ≤ stop)
    (h' : Scans stop last (offset + linesSize lines) lines' blocks') :
    Scans stop place offset (lines ++ lines') (blocks ++ blocks') := by
  induction h with
  | done => exact h'
  | @opened offset line language marker lines blocks last h _ ih =>
      rw [linesSize_cons, ← Nat.add_assoc, ← Nat.add_assoc] at hs h'
      refine .opened h ?_
      rw [Nat.min_eq_left (by omega)]
      exact ih hs h'
  | ignored h _ ih =>
      rw [linesSize_cons, ← Nat.add_assoc, ← Nat.add_assoc] at hs h'
      exact .ignored h (ih hs h')
  | closed h _ ih =>
      rw [linesSize_cons, ← Nat.add_assoc, ← Nat.add_assoc] at hs h'
      exact .closed h (ih hs h')
  | kept h _ ih =>
      rw [linesSize_cons, ← Nat.add_assoc, ← Nat.add_assoc] at hs h'
      exact .kept h (ih hs h')

theorem linesSize_eq (ls : List Text) : linesSize ls = (unlines ls).length := by
  induction ls with
  | nil => rfl
  | cons line ls ih => rw [linesSize_cons, unlines_cons, length_append_cons, ih]

theorem Reads.find_eq (h : Reads .outside 0 ls blocks last) (hl : ∀ line ∈ ls, '\n' ∉ line)
    (h' : Scans (unlines ls ++ s).length last (unlines ls).length (Text.lines s) blocks') :
    find (unlines ls ++ s) = blocks ++ blocks' := by
  have hsize : 0 + linesSize ls = (unlines ls).length := by rw [linesSize_eq, Nat.zero_add]
  have hle : 0 + linesSize ls ≤ (unlines ls ++ s).length := by
    rw [hsize, List.length_append]
    exact Nat.le_add_right _ _
  have hscans := h.scans hle (by rwa [hsize])
  rw [← lines_unlines_append hl] at hscans
  exact (scans_find _).unique hscans

theorem not_openingLine_nil : ¬ OpeningLine [] language head := fun h => h.ne_nil rfl

theorem not_closingLine_nil : ¬ ClosingLine [] head := fun h => h.ne_nil rfl

/-- After whole lines without an open block the reader is outside of all blocks. -/
theorem reads_of_terminated (hP : lastLine P = []) (hb : ∀ b ∈ find P, b.terminated = true) :
    ∃ ls, (∀ line ∈ ls, '\n' ∉ line) ∧ P = unlines ls ∧ Reads .outside 0 ls (find P) .outside := by
  obtain ⟨ls, hls, hs⟩ := exists_unlines P
  obtain ⟨blocks, last, hr⟩ := exists_reads .outside 0 ls
  rw [hP, List.append_nil] at hs
  subst hs
  have hfind {blocks' : List ForeignBlock}
      (h : Scans (unlines ls).length last (unlines ls).length [[]] blocks') :
      find (unlines ls) = blocks ++ blocks' := by
    have hwhole : find (unlines ls ++ []) = blocks ++ blocks' :=
      hr.find_eq hls (by rwa [List.append_nil])
    rwa [List.append_nil] at hwhole
  refine ⟨ls, hls, rfl, ?_⟩
  cases last with
  | outside =>
      have h := hfind (.ignored (fun _ _ => not_openingLine_nil) .finished)
      rwa [h, List.append_nil]
  | inside language head start =>
      have h := hfind (.kept (fun _ => not_closingLine_nil) .unclosed)
      exact absurd (hb _ (h ▸ List.mem_append_right _ List.mem_cons_self)) (by simp [terminated])

theorem reads_kept (h : ∀ line ∈ ls, ∀ marker, ¬ ClosingLine line marker) :
    Reads (.inside language head start) offset ls [] (.inside language head start) := by
  induction ls generalizing offset with
  | nil => exact .done
  | cons line ls ih =>
      rw [List.forall_mem_cons] at h
      exact .kept h.1 (ih h.2)

def findAfter (line S : Text) : List ForeignBlock :=
  (find (S.drop 1)).map (shift (line.length + 1))

/-- What follows a line outside of all blocks is read as if it stood alone. -/
theorem exists_scans_after (hS : S = [] ∨ S.head? = some '\n') (hl : '\n' ∉ line) (n : Nat) :
    ∃ lines', Text.lines (line ++ S) = line :: lines' ∧
      Scans (n + (line ++ S).length) .outside (n + line.length + 1) lines'
        ((findAfter line S).map (shift n)) := by
  rcases S with _ | ⟨c, S⟩
  · refine ⟨[], by rw [List.append_nil, lines_eq_singleton hl], ?_⟩
    exact .finished
  · obtain rfl : c = '\n' := by simpa using hS
    refine ⟨Text.lines S, by rw [lines_append, lines_eq_singleton hl]; rfl, ?_⟩
    have hshift : (findAfter line ('\n' :: S)).map (shift n) =
        (find S).map (shift (n + line.length + 1)) := by
      simp only [findAfter, List.map_map, Function.comp_def, shift_shift, Nat.add_assoc]
      rfl
    rw [length_append_cons, ← Nat.add_assoc, ← Nat.add_assoc, hshift]
    exact (scans_find S).shift

theorem placed_findAfter (hl : '\n' ∉ line) (hS : S = [] ∨ S.head? = some '\n') :
    Placed (line ++ S).length (line.length + 1) (findAfter line S) := by
  obtain ⟨lines', hlines', hscans⟩ := exists_scans_after hS hl 0
  have hsize := linesSize_lines (line ++ S)
  have hzero : shift 0 = id := by
    funext b
    cases b with
    | mk language head body tail =>
        simp [shift, Span.shift]
  rw [hlines', linesSize_cons] at hsize
  simp only [Nat.zero_add, hzero, List.map_id] at hscans
  exact hscans.placed hsize trivial

end PioSyntax.ForeignBlock

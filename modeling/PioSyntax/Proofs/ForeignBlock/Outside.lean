import PioSyntax.Proofs.ForeignBlock.Parts

namespace PioSyntax.ForeignBlock

open Text Pattern

variable {place last : Place} {offset stop start : Nat} {lines lines' ls : List Text}
variable {blocks : List ForeignBlock} {line language s t S M : Text} {head : Span}

def Place.bodyStart : Place → Nat
  | .outside => 0
  | .inside _ _ start => start

theorem Reads.bodyStart_le (h : Reads place offset lines blocks last)
    (hp : place.bodyStart ≤ offset) : last.bodyStart ≤ offset + linesSize lines := by
  induction h with
  | done => exact hp
  | opened _ _ ih =>
      rw [linesSize_cons, ← Nat.add_assoc, ← Nat.add_assoc]
      exact ih (Nat.le_refl _)
  | ignored _ _ ih | closed _ _ ih =>
      rw [linesSize_cons, ← Nat.add_assoc, ← Nat.add_assoc]
      exact ih (Nat.zero_le _)
  | kept _ _ ih =>
      rw [linesSize_cons, ← Nat.add_assoc, ← Nat.add_assoc]
      exact ih (Nat.le_trans hp (by omega))

theorem Reads.terminated (h : Reads place offset lines blocks last) :
    ∀ b ∈ blocks, b.terminated = true := by
  induction h with
  | done => simp
  | opened _ _ ih | ignored _ _ ih | kept _ _ ih => exact ih
  | closed _ _ ih => exact List.forall_mem_cons.mpr ⟨rfl, ih⟩

theorem Reads.find_unlines (h : Reads .outside 0 ls blocks .outside)
    (hl : ∀ line ∈ ls, '\n' ∉ line) : find (unlines ls) = blocks := by
  have hend : Scans (unlines ls ++ []).length .outside (unlines ls).length (Text.lines []) [] :=
    .ignored (fun _ _ => not_openingLine_nil) .finished
  have hfind := h.find_eq hl hend
  rwa [List.append_nil, List.append_nil] at hfind

/-- The block that is open at a line covers this line. -/
theorem Scans.exists_covering (h : Scans stop (.inside language head start) offset lines blocks) :
    ∃ b rest, blocks = b :: rest ∧ b.body.start = start ∧ min offset stop ≤ b.body.stop := by
  generalize hp : Place.inside language head start = place at h
  induction h with
  | finished | opened | ignored => cases hp
  | unclosed =>
      cases hp
      exact ⟨_, [], rfl, rfl, Nat.min_le_right _ _⟩
  | closed =>
      cases hp
      exact ⟨_, _, rfl, rfl, Nat.min_le_left _ _⟩
  | kept _ _ ih =>
      obtain ⟨b, rest, hb, hs, he⟩ := ih hp
      exact ⟨b, rest, hb, hs, by omega⟩

/-- Nothing changes at a line that opens no block outside of all blocks. -/
theorem Reads.find_line (h : Reads .outside 0 ls blocks .outside) (hl : ∀ line ∈ ls, '\n' ∉ line)
    (hline : '\n' ∉ line) (hopen : ∀ language marker, ¬ OpeningLine line language marker)
    (hS : S = [] ∨ S.head? = some '\n') : find (unlines ls ++ (line ++ S)) =
      blocks ++ (findAfter line S).map (shift (unlines ls).length) := by
  obtain ⟨lines', hlines', hscans⟩ := exists_scans_after hS hline (unlines ls).length
  apply h.find_eq hl
  rw [hlines', List.length_append]
  exact .ignored hopen hscans

/-- A line that closes no block leaves a block open. -/
theorem Reads.exists_covering (h : Reads .outside 0 ls blocks (.inside language head start))
    (hl : ∀ line ∈ ls, '\n' ∉ line) (hline : '\n' ∉ line)
    (hclose : ∀ marker, ¬ ClosingLine line marker) (hS : S = [] ∨ S.head? = some '\n') :
    ∃ b ∈ find (unlines ls ++ (line ++ S)), b.body.start ≤ (unlines ls).length ∧
      (unlines ls).length + line.length ≤ b.body.stop := by
  have hstart := h.bodyStart_le (Nat.zero_le _)
  rw [linesSize_eq, Nat.zero_add] at hstart
  obtain ⟨lines', blocks', hlines, hscans⟩ : ∃ lines' blocks', Text.lines (line ++ S) =
      line :: lines' ∧ Scans (unlines ls ++ (line ++ S)).length (.inside language head start)
        ((unlines ls).length + line.length + 1) lines' blocks' := by
    rcases S with _ | ⟨c, S⟩
    · exact ⟨[], _, by rw [List.append_nil, lines_eq_singleton hline], .unclosed⟩
    · obtain rfl : c = '\n' := by simpa using hS
      have hlen : (unlines ls ++ (line ++ '\n' :: S)).length =
          (unlines ls).length + line.length + 1 + S.length := by
        simp only [List.length_append, List.length_cons]
        omega
      refine ⟨Text.lines S, findFrom (.inside language head start) 0 (some '\n')
        ((unlines ls).length + line.length + 1) S,
        by rw [lines_append, lines_eq_singleton hline]; rfl, ?_⟩
      rw [hlen]
      exact scans_findFrom _ _ S (Eq.refl (startsLine (some '\n')))
  obtain ⟨b, rest, rfl, hb, he⟩ := hscans.exists_covering
  have hkept : Scans (unlines ls ++ (line ++ S)).length (.inside language head start)
      (unlines ls).length (Text.lines (line ++ S)) (b :: rest) := by
    rw [hlines]
    exact .kept hclose hscans
  have hfind := h.find_eq hl hkept
  refine ⟨b, ?_, by rwa [hb], ?_⟩
  · rw [hfind]
    exact List.mem_append_right _ List.mem_cons_self
  · simp only [List.length_append] at he
    omega

/-- The blocks of a text whose first line goes on from a line on which none opens. -/
def blocksAfterLine (t : Text) : List ForeignBlock :=
  findAfter (t.takeWhile (· != '\n')) (t.dropWhile (· != '\n'))

theorem not_mem_firstLine (t : Text) : '\n' ∉ t.takeWhile (· != '\n') := fun h => by
  simpa using List.mem_takeWhile_imp h

theorem firstLine_ends (t : Text) : t.dropWhile (· != '\n') = [] ∨
    (t.dropWhile (· != '\n')).head? = some '\n' := by
  have h := List.head?_dropWhile_not (· != '\n') t
  cases hd : t.dropWhile (· != '\n') with
  | nil => exact .inl rfl
  | cons c t' => simpa [hd] using h

theorem placed_blocksAfterLine (t : Text) :
    Placed t.length ((t.takeWhile (· != '\n')).length + 1) (blocksAfterLine t) := by
  have h := placed_findAfter (not_mem_firstLine t) (firstLine_ends t)
  rwa [List.takeWhile_append_dropWhile] at h

variable {l : Text}

theorem Reads.find_beside (h : Reads .outside 0 ls blocks .outside) (hls : ∀ line ∈ ls, '\n' ∉ line)
    (hl : '\n' ∉ l) (hM : '\n' ∉ M) (hs : '/' ∈ M) :
    find (unlines ls ++ l ++ M ++ t) =
      blocks ++ (blocksAfterLine t).map (shift (unlines ls ++ l ++ M).length) := by
  have hsource : unlines ls ++ l ++ M ++ t = unlines ls ++
      (l ++ M ++ t.takeWhile (· != '\n') ++ t.dropWhile (· != '\n')) := by
    simp only [List.append_assoc, List.takeWhile_append_dropWhile]
  have hline : '\n' ∉ l ++ M ++ t.takeWhile (· != '\n') := by
    simp [hl, hM, not_mem_firstLine]
  have hopen : ∀ language marker,
      ¬ OpeningLine (l ++ M ++ t.takeWhile (· != '\n')) language marker := by
    intro language marker ho
    exact ho.not_mem (by decide) (List.mem_append_left _ (List.mem_append_right l hs))
  rw [hsource, h.find_line hls hline hopen (firstLine_ends t)]
  simp only [blocksAfterLine, findAfter, List.map_map, Function.comp_def, shift_shift,
    List.length_append, Nat.add_assoc]

theorem Reads.blockTokens_beside (h : Reads .outside 0 ls blocks .outside)
    (hls : ∀ line ∈ ls, '\n' ∉ line) (hl : '\n' ∉ l) (hM : '\n' ∉ M) (hs : '/' ∈ M) :
    (find (unlines ls ++ l ++ M ++ t)).flatMap (·.tokens (unlines ls ++ l ++ M ++ t)) =
      blocks.flatMap (·.tokens (unlines ls)) ++
        ((blocksAfterLine t).flatMap (·.tokens t)).map
          (Token.shift (unlines ls ++ l ++ M).length) := by
  have hplaced := placed_find (unlines ls)
  rw [h.find_unlines hls] at hplaced
  have hfirst : blocks.flatMap (·.tokens (unlines ls ++ l ++ M ++ t)) =
      blocks.flatMap (·.tokens (unlines ls)) := by
    rw [List.append_assoc, List.append_assoc]
    exact hplaced.tokens_append (Nat.le_refl _)
  rw [h.find_beside hls hl hM hs, List.flatMap_append, hfirst, List.flatMap_map, List.map_flatMap]
  simp only [tokens_shift]

/-- The segments around a stretch of a line that opens no block: what is in them before the stretch
and after it does not depend on it. -/
theorem Reads.exists_segments_beside (h : Reads .outside 0 ls blocks .outside)
    (hls : ∀ line ∈ ls, '\n' ∉ line) (hl : '\n' ∉ l) (t : Text) :
    ∃ (first rest : List Segment) (resume : Nat) (before : Option Char) (s text : Text),
      text <+: t ∧ lastLine s = l ∧ resume + s.length = (unlines ls ++ l).length ∧
      (∀ segment ∈ first, segment.stop ≤ resume) ∧
      (∀ segment ∈ rest, (t.takeWhile (· != '\n')).length < segment.start) ∧
      ∀ M, '\n' ∉ M → '/' ∈ M →
        segmentsFrom (unlines ls ++ l ++ M ++ t) 0 (find (unlines ls ++ l ++ M ++ t)) =
          first ++ ⟨resume, before, s ++ (M ++ text)⟩ ::
            rest.map (Segment.shift (unlines ls ++ l ++ M).length) := by
  have hplaced := placed_find (unlines ls)
  rw [h.find_unlines hls] at hplaced
  obtain ⟨first, resume, -, hresume, hfirst, hsegments⟩ :=
    hplaced.exists_segmentsFrom_append (Nat.zero_le _) h.terminated
  obtain ⟨text, rest, htext, hrest, hacross⟩ :=
    (placed_blocksAfterLine t).exists_segmentsFrom_across (Nat.succ_pos _)
  refine ⟨first, rest, resume, if resume = 0 then none else (unlines ls)[resume - 1]?,
    (unlines ls).drop resume ++ l, text, htext, ?_, ?_, hfirst, hrest, ?_⟩
  · rw [lastLine_append hl, lastLine_drop (lastLine_unlines ls), List.nil_append]
  · simp only [List.length_append, List.length_drop]
    omega
  · intro M hM hs
    have hlong : resume ≤ (unlines ls ++ l ++ M).length := by
      simp only [List.length_append]
      omega
    have hdrop : (unlines ls ++ l ++ M).drop resume = (unlines ls).drop resume ++ l ++ M := by
      rw [List.append_assoc, List.drop_append_of_le_length hresume, List.append_assoc]
    have hbefore : (if resume = 0 then none else (unlines ls ++ l ++ M)[resume - 1]?) =
        if resume = 0 then none else (unlines ls)[resume - 1]? := by
      split
      · rfl
      · rw [List.append_assoc, List.getElem?_append_left (by omega)]
    have hsplit : segmentsFrom (unlines ls ++ l ++ M ++ t) 0 (find (unlines ls ++ l ++ M ++ t)) =
        first ++ segmentsFrom (unlines ls ++ l ++ M ++ t) resume
          ((blocksAfterLine t).map (shift (unlines ls ++ l ++ M).length)) := by
      rw [h.find_beside hls hl hM hs, List.append_assoc, List.append_assoc]
      exact hsegments _ _
    rw [hsplit, hacross _ resume hlong, hbefore, hdrop, List.append_assoc]

end PioSyntax.ForeignBlock

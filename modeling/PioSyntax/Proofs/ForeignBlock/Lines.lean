import PioSyntax.Proofs.ForeignBlock.Delimiter

namespace PioSyntax.ForeignBlock

open Text Pattern

/-- What a reader with two states makes of lines, the first of which is at `offset`; the text ends
at `stop`. Outside a block only an opening line counts, inside one only a closing line. -/
inductive Scans (stop : Nat) : Place → Nat → List Text → List ForeignBlock → Prop
  | finished {offset : Nat} : Scans stop .outside offset [] []
  | unclosed {offset : Nat} {language : Text} {head : Span} {start : Nat} :
      Scans stop (.inside language head start) offset [] [⟨language, head, ⟨start, stop⟩, none⟩]
  | opened {offset : Nat} {line language : Text} {marker : Span} {lines : List Text}
      {blocks : List ForeignBlock} (h : OpeningLine line language marker)
      (rest : Scans stop
        (.inside language (marker.shift offset) (min (offset + line.length + 1) stop))
        (offset + line.length + 1) lines blocks) :
      Scans stop .outside offset (line :: lines) blocks
  | ignored {offset : Nat} {line : Text} {lines : List Text} {blocks : List ForeignBlock}
      (h : ∀ language marker, ¬ OpeningLine line language marker)
      (rest : Scans stop .outside (offset + line.length + 1) lines blocks) :
      Scans stop .outside offset (line :: lines) blocks
  | closed {offset : Nat} {line language : Text} {head marker : Span} {start : Nat}
      {lines : List Text} {blocks : List ForeignBlock} (h : ClosingLine line marker)
      (rest : Scans stop .outside (offset + line.length + 1) lines blocks) :
      Scans stop (.inside language head start) offset (line :: lines)
        (⟨language, head, ⟨start, offset⟩, some (marker.shift offset)⟩ :: blocks)
  | kept {offset : Nat} {line language : Text} {head : Span} {start : Nat} {lines : List Text}
      {blocks : List ForeignBlock} (h : ∀ marker, ¬ ClosingLine line marker)
      (rest : Scans stop (.inside language head start) (offset + line.length + 1) lines blocks) :
      Scans stop (.inside language head start) offset (line :: lines) blocks

/-- Blocks from `start` on, one after another, none of them beyond `stop`. Only the last one may be
without a tail, and its body ends at `stop`. -/
inductive Placed (stop : Nat) : Nat → List ForeignBlock → Prop
  | nil {start : Nat} : Placed stop start []
  | unclosed {start : Nat} {language : Text} {head body : Span} (hs : start ≤ head.start)
      (hh : head.start < head.stop) (hb : head.stop ≤ body.start) (hn : body.start ≤ body.stop)
      (he : body.stop = stop) : Placed stop start [⟨language, head, body, none⟩]
  | closed {start : Nat} {language : Text} {head body tail : Span} {blocks : List ForeignBlock}
      (hs : start ≤ head.start) (hh : head.start < head.stop) (hb : head.stop ≤ body.start)
      (hn : body.start ≤ body.stop) (ht : body.stop ≤ tail.start) (hm : tail.start < tail.stop)
      (he : tail.stop ≤ stop) (rest : Placed stop tail.stop blocks) :
      Placed stop start (⟨language, head, body, some tail⟩ :: blocks)

variable {text line rest language : Text} {marker : Span} {before : Option Char}
variable {stop start offset : Nat} {place : Place} {blocks : List ForeignBlock} {c : Char}

theorem opening?_of_not_startsLine (h : startsLine before = false) :
    opening? before text = none := by simp [opening?, h]

theorem closing?_of_not_startsLine (h : startsLine before = false) :
    closing? before text = none := by simp [closing?, h]

def Place.Passes (before : Option Char) (text : Text) : Place → Prop
  | .outside => opening? before text = none
  | .inside .. => closing? before text = none

theorem passes_of_not_startsLine (h : startsLine before = false) : place.Passes before text := by
  cases place with
  | outside => exact opening?_of_not_startsLine h
  | inside => exact closing?_of_not_startsLine h

theorem findFrom_skip_add (place : Place) (n : Nat) (before : Option Char) (offset : Nat)
    (s t : Text) : findFrom place (s.length + n) before offset (s ++ t) =
      findFrom place n (charBefore before s) (offset + s.length) t := by
  induction s generalizing before offset with
  | nil => rw [List.length_nil, Nat.zero_add]; rfl
  | cons c s ih =>
      rw [List.length_cons, Nat.add_right_comm, List.cons_append, findFrom, ih, charBefore_cons,
        Nat.add_assoc, Nat.add_comm 1]

theorem findFrom_skip (place : Place) (before : Option Char) (offset : Nat) (s t : Text) :
    findFrom place s.length before offset (s ++ t) =
      findFrom place 0 (charBefore before s) (offset + s.length) t :=
  findFrom_skip_add place 0 before offset s t

theorem findFrom_pass (h : place.Passes before (c :: text)) :
    findFrom place 0 before offset (c :: text) =
      findFrom place 0 (some c) (offset + 1) text := by
  cases place <;> simp only [Place.Passes] at h <;> simp only [findFrom, h]

theorem findFrom_within (hc : c ≠ '\n') (hl : '\n' ∉ line) :
    findFrom place 0 (some c) offset (line ++ text) =
      findFrom place 0 (charBefore (some c) line) (offset + line.length) text := by
  induction line generalizing c offset with
  | nil => rfl
  | cons d line ih =>
      rw [List.mem_cons, not_or] at hl
      rw [List.cons_append, findFrom_pass (passes_of_not_startsLine (by simp [startsLine, hc])),
        ih (Ne.symm hl.1) hl.2, charBefore_cons, List.length_cons, Nat.add_assoc, Nat.add_comm 1]

theorem startsLine_charBefore (hc : c ≠ '\n') (hl : '\n' ∉ line) :
    startsLine (charBefore (some c) line) = false := by
  induction line generalizing c with
  | nil => simp [startsLine, hc]
  | cons d line ih =>
      rw [List.mem_cons, not_or] at hl
      rw [charBefore_cons]
      exact ih (Ne.symm hl.1) hl.2

theorem findFrom_line (hl : '\n' ∉ line) (hr : LineEnds rest)
    (h : place.Passes before (line ++ rest)) :
    findFrom place 0 before offset (line ++ rest) =
      findFrom place 0 (charBefore before (line ++ rest.take 1))
        (offset + (line.length + min 1 rest.length)) (rest.drop 1) := by
  cases line with
  | nil =>
      rcases lineEnds_iff.mp hr with rfl | ⟨t, rfl⟩
      · rfl
      · rw [List.nil_append, findFrom_pass h]
        simp
  | cons c line =>
      rw [List.mem_cons, not_or] at hl
      rw [List.cons_append] at h ⊢
      rw [findFrom_pass h, findFrom_within (Ne.symm hl.1) hl.2]
      rcases lineEnds_iff.mp hr with rfl | ⟨t, rfl⟩
      · simp [Nat.add_comm, Nat.add_left_comm]
      · have hp : place.Passes (charBefore (some c) line) ('\n' :: t) :=
          passes_of_not_startsLine (startsLine_charBefore (Ne.symm hl.1) hl.2)
        rw [findFrom_pass hp]
        simp [charBefore_append, Nat.add_comm, Nat.add_left_comm]

/-- After a delimiter the search goes on at the next line. -/
theorem findFrom_after_line (hne : line ≠ []) :
    findFrom place (line.length + min 1 rest.length - 1) line.head? (offset + 1)
        (line.tail ++ rest) =
      findFrom place 0 (charBefore before (line ++ rest.take 1))
        (offset + (line.length + min 1 rest.length)) (rest.drop 1) := by
  obtain ⟨c, line, rfl⟩ := List.exists_cons_of_ne_nil hne
  have hs := findFrom_skip place (some c) (offset + 1) (line ++ rest.take 1) (rest.drop 1)
  simp only [List.append_assoc, List.take_append_drop, List.length_append, List.length_take] at hs
  simp only [List.length_cons, List.head?_cons, List.tail_cons, List.cons_append, charBefore_cons]
  rw [show line.length + 1 + min 1 rest.length - 1 = line.length + min 1 rest.length by omega, hs]
  congr 1
  omega

theorem OpeningLine.ne_nil (h : OpeningLine line language marker) : line ≠ [] := by
  cases h
  simp

theorem ClosingLine.ne_nil (h : ClosingLine line marker) : line ≠ [] := by
  cases h
  simp

theorem findFrom_opened (hb : startsLine before = true) (h : OpeningLine line language marker)
    (hr : LineEnds rest) :
    findFrom .outside 0 before offset (line ++ rest) =
      findFrom (.inside language (marker.shift offset)
          (offset + (line.length + min 1 rest.length))) 0 (charBefore before (line ++ rest.take 1))
        (offset + (line.length + min 1 rest.length)) (rest.drop 1) := by
  have ho := opening?_complete hb h hr
  rw [← findFrom_after_line h.ne_nil]
  obtain ⟨c, line, rfl⟩ := List.exists_cons_of_ne_nil h.ne_nil
  rw [List.cons_append] at ho ⊢
  simp only [findFrom, ho, List.head?_cons, List.tail_cons]

theorem findFrom_closed {head : Span} (hb : startsLine before = true)
    (h : ClosingLine line marker) (hr : LineEnds rest) :
    findFrom (.inside language head start) 0 before offset (line ++ rest) =
      ⟨language, head, ⟨start, offset⟩, some (marker.shift offset)⟩ ::
        findFrom .outside 0 (charBefore before (line ++ rest.take 1))
          (offset + (line.length + min 1 rest.length)) (rest.drop 1) := by
  have ho := closing?_complete hb h hr
  rw [← findFrom_after_line h.ne_nil]
  obtain ⟨c, line, rfl⟩ := List.exists_cons_of_ne_nil h.ne_nil
  rw [List.cons_append] at ho ⊢
  simp only [findFrom, ho, List.head?_cons, List.tail_cons]

theorem opening?_eq_none (hl : '\n' ∉ line) (hr : LineEnds rest)
    (h : ∀ language marker, ¬ OpeningLine line language marker) :
    opening? before (line ++ rest) = none := by
  apply Option.eq_none_iff_forall_ne_some.mpr
  intro o ho
  obtain ⟨-, line', rest', he, hline, hr', -⟩ := opening?_sound ho
  obtain ⟨rfl, -⟩ := line_unique hl hline.not_mem_newline hr hr' he
  exact h _ _ hline

theorem closing?_eq_none (hl : '\n' ∉ line) (hr : LineEnds rest)
    (h : ∀ marker, ¬ ClosingLine line marker) : closing? before (line ++ rest) = none := by
  apply Option.eq_none_iff_forall_ne_some.mpr
  intro o ho
  obtain ⟨-, line', rest', he, hline, hr', -⟩ := closing?_sound ho
  obtain ⟨rfl, -⟩ := line_unique hl hline.not_mem_newline hr hr' he
  exact h _ hline

theorem scans_end (place : Place) (before : Option Char) (offset stop : Nat) :
    Scans stop place offset [] (findFrom place 0 before stop []) := by
  cases place with
  | outside => exact .finished
  | inside => exact .unclosed

theorem scans_line {more : List Text} (hb : startsLine before = true) (hl : '\n' ∉ line)
    (hr : LineEnds rest) (hstop : offset + (line ++ rest).length = stop)
    (next : ∀ place : Place, Scans stop place (offset + line.length + 1) more
      (findFrom place 0 (charBefore before (line ++ rest.take 1))
        (offset + (line.length + min 1 rest.length)) (rest.drop 1))) :
    Scans stop place offset (line :: more) (findFrom place 0 before offset (line ++ rest)) := by
  cases place with
  | outside =>
      by_cases h : ∃ language marker, OpeningLine line language marker
      · obtain ⟨language, marker, h⟩ := h
        rw [findFrom_opened hb h hr]
        have hstart : min (offset + line.length + 1) stop =
            offset + (line.length + min 1 rest.length) := by
          rw [← hstop, List.length_append]
          omega
        apply Scans.opened h
        rw [hstart]
        exact next _
      · simp only [not_exists] at h
        have hp : Place.outside.Passes before (line ++ rest) := opening?_eq_none hl hr h
        rw [findFrom_line hl hr hp]
        exact .ignored h (next _)
  | inside language head start =>
      by_cases h : ∃ marker, ClosingLine line marker
      · obtain ⟨marker, h⟩ := h
        rw [findFrom_closed hb h hr]
        exact .closed h (next _)
      · simp only [not_exists] at h
        have hp : (Place.inside language head start).Passes before (line ++ rest) :=
          closing?_eq_none hl hr h
        rw [findFrom_line hl hr hp]
        exact .kept h (next _)

theorem scans_findFrom (place : Place) (offset : Nat) (text : Text)
    (hb : startsLine before = true) :
    Scans (offset + text.length) place offset (lines text)
      (findFrom place 0 before offset text) := by
  induction text using line_induction generalizing place before offset with
  | last line hl =>
      have h : Scans (offset + (line ++ []).length) place offset [line]
          (findFrom place 0 before offset (line ++ [])) :=
        scans_line hb hl stops_nil rfl fun place => by
          simpa using scans_end place (charBefore before line) _ (offset + line.length)
      simpa only [lines_eq_singleton hl, List.append_nil] using h
  | cons line text hl ih =>
      have ho : offset + line.length + 1 + text.length =
          offset + (line ++ '\n' :: text).length := by
        simp only [List.length_append, List.length_cons]
        omega
      rw [lines_append, lines_eq_singleton hl, List.singleton_append]
      apply scans_line hb hl (stops_cons.mpr rfl) rfl
      intro place
      have h := ih place (offset + line.length + 1) (Eq.refl (startsLine (some '\n')))
      rw [ho] at h
      simpa [charBefore_append, Nat.add_assoc] using h

theorem OpeningLine.unique {language' : Text} {marker' : Span}
    (h : OpeningLine line language marker) (h' : OpeningLine line language' marker') :
    language = language' ∧ marker = marker' := by
  have ho : opening? none (line ++ []) = _ := opening?_complete rfl h stops_nil
  rw [opening?_complete rfl h' stops_nil] at ho
  simp only [Option.some.injEq, Opening.mk.injEq] at ho
  exact ⟨ho.1.symm, ho.2.1.symm⟩

theorem ClosingLine.unique {marker' : Span} (h : ClosingLine line marker)
    (h' : ClosingLine line marker') : marker = marker' := by
  have ho : closing? none (line ++ []) = _ := closing?_complete rfl h stops_nil
  rw [closing?_complete rfl h' stops_nil] at ho
  simp only [Option.some.injEq, Closing.mk.injEq] at ho
  exact ho.1.symm

theorem Scans.unique {lines : List Text} {blocks' : List ForeignBlock}
    (h : Scans stop place offset lines blocks) (h' : Scans stop place offset lines blocks') :
    blocks = blocks' := by
  induction h generalizing blocks' with
  | finished => cases h'; rfl
  | unclosed => cases h'; rfl
  | opened h _ ih =>
      cases h' with
      | opened h₂ rest =>
          obtain ⟨rfl, rfl⟩ := h.unique h₂
          exact ih rest
      | ignored h₂ => exact absurd h (h₂ _ _)
  | ignored h _ ih =>
      cases h' with
      | opened h₂ => exact absurd h₂ (h _ _)
      | ignored _ rest => exact ih rest
  | closed h _ ih =>
      cases h' with
      | closed h₂ rest => rw [h.unique h₂, ih rest]
      | kept h₂ => exact absurd h (h₂ _)
  | kept h _ ih =>
      cases h' with
      | closed h₂ => exact absurd h₂ (h _)
      | kept _ rest => exact ih rest

theorem scans_find (source : Text) :
    Scans source.length .outside 0 (lines source) (find source) := by
  simpa [find] using scans_findFrom .outside 0 source (Eq.refl (startsLine none))

theorem Placed.mono {start' : Nat} (h : Placed stop start blocks) (hs : start' ≤ start) :
    Placed stop start' blocks := by
  cases h with
  | nil => exact .nil
  | unclosed h₁ h₂ h₃ h₄ h₅ => exact .unclosed (Nat.le_trans hs h₁) h₂ h₃ h₄ h₅
  | closed h₁ h₂ h₃ h₄ h₅ h₆ h₇ rest => exact .closed (Nat.le_trans hs h₁) h₂ h₃ h₄ h₅ h₆ h₇ rest

def Place.origin (offset : Nat) : Place → Nat
  | .outside => offset
  | .inside _ head _ => head.start

def Place.Within (offset stop : Nat) : Place → Prop
  | .outside => True
  | .inside _ head start =>
      head.start < head.stop ∧ head.stop ≤ start ∧ start ≤ offset ∧ start ≤ stop

def linesSize : List Text → Nat
  | [] => 0
  | line :: lines => line.length + 1 + linesSize lines

@[simp] theorem linesSize_cons (line : Text) (lines : List Text) :
    linesSize (line :: lines) = line.length + 1 + linesSize lines := rfl

theorem Scans.placed {lines : List Text} (h : Scans stop place offset lines blocks)
    (hlen : offset + linesSize lines = stop + 1) (hp : place.Within offset stop) :
    Placed stop (place.origin offset) blocks := by
  induction h with
  | finished => exact .nil
  | unclosed => exact .unclosed (Nat.le_refl _) hp.1 hp.2.1 hp.2.2.2 rfl
  | @opened offset line language marker lines blocks h _ ih =>
      have hb := h.bounds
      rw [linesSize_cons] at hlen
      refine (ih (by omega) ?_).mono (Nat.le_add_right _ _)
      simp only [Place.Within, Span.shift]
      omega
  | @ignored offset line lines blocks h _ ih =>
      rw [linesSize_cons] at hlen
      apply (ih (by omega) trivial).mono
      simp only [Place.origin]
      omega
  | @closed offset line language head marker start lines blocks h _ ih =>
      have hb := h.bounds
      rw [linesSize_cons] at hlen
      obtain ⟨h₁, h₂, h₃, h₄⟩ := hp
      have rest : Placed stop (offset + marker.stop) blocks := (ih (by omega) trivial).mono (by
        simp only [Place.origin]
        omega)
      exact .closed (Nat.le_refl _) h₁ h₂ h₃ (Nat.le_add_right _ _)
        (Nat.add_lt_add_left hb.1 _) (by simp only [Span.shift]; omega) rest
  | @kept offset line language head start lines blocks h _ ih =>
      rw [linesSize_cons] at hlen
      obtain ⟨h₁, h₂, h₃, h₄⟩ := hp
      exact ih (by omega) ⟨h₁, h₂, by omega, h₄⟩

theorem linesSize_lines (text : Text) : linesSize (lines text) = text.length + 1 := by
  induction text using line_induction with
  | last line hl =>
      rw [lines_eq_singleton hl, linesSize_cons]
      rfl
  | cons line text hl ih =>
      rw [lines_append, lines_eq_singleton hl, List.singleton_append, linesSize_cons, ih,
        length_append_cons]
      rfl

theorem placed_find (source : Text) : Placed source.length 0 (find source) :=
  (scans_find source).placed (by rw [linesSize_lines, Nat.zero_add]) trivial

/-- The blocks of a source are what the reader with two states makes of its lines. They lie one
after another, and nothing of them overlaps. -/
theorem scans_lines_iff (source : Text) :
    join ['\n'] (lines source) = source ∧ (∀ line ∈ lines source, '\n' ∉ line) ∧
    (∀ blocks, Scans source.length .outside 0 (lines source) blocks ↔ blocks = find source) ∧
    Placed source.length 0 (find source) := by
  refine ⟨join_lines source, fun line hl => not_mem_of_mem_lines hl, fun blocks => ?_,
    placed_find source⟩
  constructor
  · exact fun h => h.unique (scans_find source)
  · rintro rfl
    exact scans_find source

end PioSyntax.ForeignBlock

import PioSyntax.Proofs.ForeignBlock.Parts

namespace PioSyntax.ForeignBlock

open Text

structure IsBody (text : Text) : Prop where
  whole : text = [] ∨ text.getLast? = some '\n'
  kept : ∀ line ∈ lines text, ∀ marker, ¬ ClosingLine line marker

theorem isBody_iff {text : Text} : IsBody text ↔ (text = [] ∨ text.getLast? = some '\n') ∧
    ∀ line ∈ lines text, closing? none line = none := by
  have hclosing : ∀ line ∈ lines text,
      (∀ marker, ¬ ClosingLine line marker) ↔ closing? none line = none := by
    intro line hl
    simp only [closingLine_iff, not_mem_of_mem_lines hl, not_false_eq_true, true_and]
    rw [← not_exists, ← Option.map_eq_none_iff, Option.eq_none_iff_forall_ne_some, not_exists]
  constructor
  · exact fun h => ⟨h.whole, fun line hl => (hclosing line hl).mp (h.kept line hl)⟩
  · exact fun h => ⟨h.1, fun line hl => (hclosing line hl).mpr (h.2 line hl)⟩

instance {text : Text} : Decidable (IsBody text) :=
  haveI (line : Text) : Decidable (closing? none line = none) :=
    decidable_of_iff _ Option.isNone_iff_eq_none
  decidable_of_iff' _ isBody_iff

/-- A source with a block in it, but for the body of that block. -/
structure Frame where
  before : Text
  opening : Text
  closing : Text
  after : Text
  language : Text
  head : Span
  tail : Span
  whole : before = [] ∨ before.getLast? = some '\n'
  terminated : ∀ b ∈ find before, b.terminated = true
  opens : OpeningLine opening language head
  closes : ClosingLine closing tail
  ends : after = [] ∨ after.head? = some '\n'

namespace Frame

variable (F : Frame) (body : Text)

def upper : Text := F.before ++ (F.opening ++ ['\n'])

def lower : Text := F.closing ++ F.after

def source : Text := F.before ++ (F.opening ++ '\n' :: (body ++ (F.closing ++ F.after)))

def start : Nat := F.before.length + F.opening.length + 1

def block : ForeignBlock :=
  ⟨F.language, F.head.shift F.before.length, ⟨F.start, F.start + body.length⟩,
    some (F.tail.shift (F.start + body.length))⟩

def bodyTokens : List Token :=
  if body = [] then [] else [⟨.foreignBlock, ⟨F.start, F.start + body.length⟩, body⟩]

def earlier : List ForeignBlock := find F.before

def later : List ForeignBlock := findAfter F.closing F.after

end Frame

variable {F : Frame} {s t body : Text} {c : Category}

theorem IsBody.exists_unlines (h : IsBody body) :
    ∃ ls, (∀ line ∈ ls, '\n' ∉ line) ∧ (∀ line ∈ ls, ∀ marker, ¬ ClosingLine line marker) ∧
      body = unlines ls := by
  obtain ⟨ls, hls, hb⟩ := Text.exists_unlines body
  rw [lastLine_eq_nil h.whole, List.append_nil] at hb
  have hlines : lines body = ls ++ lines [] := by
    rw [← lines_unlines_append hls, List.append_nil, ← hb]
  exact ⟨ls, hls, fun line hl => h.kept line (hlines ▸ List.mem_append_left _ hl), hb⟩

theorem spanToken_between : spanToken (s ++ (body ++ t)) c ⟨s.length, s.length + body.length⟩ =
    if body = [] then [] else [⟨c, ⟨s.length, s.length + body.length⟩, body⟩] := by
  have hempty : (⟨s.length, s.length + body.length⟩ : Span).IsEmpty ↔ body = [] := by
    simp only [Span.IsEmpty, ← List.length_eq_zero_iff]
    omega
  simp only [spanToken, hempty, Span.slice, between_middle]

namespace Frame

theorem source_eq : F.source body = F.upper ++ (body ++ F.lower) := by
  simp [source, upper, lower]

theorem start_eq : F.start = F.upper.length := by
  simp only [start, upper, List.length_append, List.length_cons, List.length_nil]
  omega

/-- The blocks of a source with a block after whole lines that leave none open. -/
theorem find_source (h : IsBody body) : find (F.source body) =
    F.earlier ++ F.block body :: F.later.map (shift (F.start + body.length)) := by
  obtain ⟨ls, hls, hlines, hr⟩ := reads_of_terminated (lastLine_eq_nil F.whole) F.terminated
  obtain ⟨bs, hbs, hkept, rfl⟩ := h.exists_unlines
  have hlen : F.before.length = (unlines ls).length := congrArg List.length hlines
  obtain ⟨lines', hlines', hscans⟩ := exists_scans_after F.ends F.closes.not_mem_newline
    (F.start + (unlines bs).length)
  rw [source, hlines]
  apply hr.find_eq hls
  have hstop : (unlines ls ++ (F.opening ++ '\n' :: (unlines bs ++ (F.closing ++ F.after)))).length =
      F.start + (unlines bs).length + (F.closing ++ F.after).length := by
    simp only [start, hlen, List.length_append, List.length_cons]
    omega
  rw [lines_append, lines_eq_singleton F.opens.not_mem_newline, lines_unlines_append hbs, hlines',
    hstop, ← hlen]
  apply Scans.opened F.opens
  rw [← start, Nat.min_eq_left (by omega)]
  apply (reads_kept hkept).scans
  · rw [linesSize_eq]
    exact Nat.le_add_right _ _
  · rw [linesSize_eq]
    exact .closed F.closes hscans

theorem placed_later (F : Frame) : Placed F.lower.length (F.closing.length + 1) F.later :=
  placed_findAfter F.closes.not_mem_newline F.ends

def upperTokens (F : Frame) : List Token :=
  F.earlier.flatMap (·.tokens F.before) ++
    (spanToken F.opening .foreignBlockDelimiter F.head).map (Token.shift F.before.length)

def lowerTokens (F : Frame) : List Token :=
  spanToken F.lower .foreignBlockDelimiter F.tail ++ F.later.flatMap (·.tokens F.lower)

theorem blockTokens_source (h : IsBody body) :
    (find (F.source body)).flatMap (·.tokens (F.source body)) =
      F.upperTokens ++
        (F.bodyTokens body ++ F.lowerTokens.map (Token.shift (F.start + body.length))) := by
  have hbefore : F.earlier.flatMap (·.tokens (F.source body)) =
      F.earlier.flatMap (·.tokens F.before) :=
    (placed_find F.before).tokens_append (Nat.le_refl _)
  have hhead : spanToken (F.source body) .foreignBlockDelimiter (F.head.shift F.before.length) =
      (spanToken F.opening .foreignBlockDelimiter F.head).map (Token.shift F.before.length) := by
    rw [source, spanToken_shift, spanToken_append F.opens.bounds.2]
  have hbody : spanToken (F.source body) .foreignBlock ⟨F.start, F.start + body.length⟩ =
      F.bodyTokens body := by
    rw [source_eq, start_eq, spanToken_between, bodyTokens, start_eq]
  have hsource : F.source body = (F.upper ++ body) ++ F.lower := by
    rw [source_eq, List.append_assoc]
  have hshift : F.start + body.length = (F.upper ++ body).length := by
    rw [start_eq, List.length_append]
  have htail : spanToken (F.source body) .foreignBlockDelimiter
      (F.tail.shift (F.start + body.length)) =
      (spanToken F.lower .foreignBlockDelimiter F.tail).map
        (Token.shift (F.start + body.length)) := by
    rw [hsource, hshift, spanToken_shift]
  have hlater : (F.later.map (shift (F.start + body.length))).flatMap (·.tokens (F.source body)) =
      (F.later.flatMap (·.tokens F.lower)).map (Token.shift (F.start + body.length)) := by
    rw [hsource, hshift, List.flatMap_map, List.map_flatMap]
    simp only [tokens_shift]
  rw [find_source h, List.flatMap_append, List.flatMap_cons, hbefore, hlater, tokens_eq, block,
    Option.elim_some, hhead, hbody, htail, upperTokens, lowerTokens]
  simp only [List.map_append, List.append_assoc]

/-- The segments around the blocks: those up to the body are always the same, those after it keep
their place from its end. -/
theorem exists_segments_source (F : Frame) :
    ∃ first : List Segment, (∀ segment ∈ first, segment.stop < F.start) ∧
      ∀ body, IsBody body → segmentsFrom (F.source body) 0 (find (F.source body)) =
        first ++ (segmentsFrom F.lower F.tail.stop F.later).map
          (Segment.shift (F.start + body.length)) := by
  obtain ⟨first, resume, -, hresume, hfirst, hsegments⟩ :=
    (placed_find F.before).exists_segmentsFrom_append (Nat.zero_le _) F.terminated
  have hhead := F.opens.bounds
  have htail := F.closes.bounds
  have hlower : Placed F.lower.length F.tail.stop F.later := F.placed_later.mono (by omega)
  refine ⟨first ++ [.ofSource F.upper resume (F.before.length + F.head.start)], ?_, ?_⟩
  · intro segment hm
    rcases List.mem_append.mp hm with hm | hm
    · have := hfirst segment hm
      rw [start]
      omega
    · have hle : F.before.length + F.head.start ≤ F.upper.length := by
        rw [← start_eq, start]
        omega
      rw [List.mem_singleton.mp hm, Segment.stop_ofSource (by omega) hle, start]
      omega
  · intro body h
    have hsource : F.source body = (F.upper ++ body) ++ F.lower := by
      rw [source_eq, List.append_assoc]
    have hshift : F.start + body.length = (F.upper ++ body).length := by
      rw [start_eq, List.length_append]
    have hlast : Segment.ofSource (F.source body) resume (F.before.length + F.head.start) =
        .ofSource F.upper resume (F.before.length + F.head.start) := by
      rw [source_eq]
      apply Segment.ofSource_append
      · rw [← start_eq, start]
        omega
      · rw [← start_eq, start]
        omega
    have hrest : segmentsFrom (F.source body) (F.start + body.length + F.tail.stop)
        (F.later.map (shift (F.start + body.length))) =
        (segmentsFrom F.lower F.tail.stop F.later).map
          (Segment.shift (F.start + body.length)) := by
      rw [hsource, hshift]
      exact hlower.segmentsFrom_shift (by omega)
    have hall : segmentsFrom (F.source body) 0 (find (F.source body)) =
        first ++ segmentsFrom (F.source body) resume
          (F.block body :: F.later.map (shift (F.start + body.length))) := by
      rw [find_source h]
      exact hsegments _ _
    rw [hall, List.append_assoc, List.singleton_append, ← hlast, ← hrest]
    rfl

end Frame

end PioSyntax.ForeignBlock

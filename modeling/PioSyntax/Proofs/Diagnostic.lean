import PioSyntax.Proofs.ForeignBlock.Markers
import PioSyntax.Proofs.ForeignBlock.Unclosed
import PioSyntax.Proofs.SemanticTokens.Pieces
import PioSyntax.Proofs.Text.Marks
import PioSyntax.Workspace

namespace PioSyntax

open Text

namespace Encoding

/-- Cuts a line at a column, unless the column is within a character or beyond the end. -/
def splitAt? (e : Encoding) (column : Nat) : Text → Option (Text × Text)
  | [] => if column = 0 then some ([], []) else none
  | c :: cs =>
    if column = 0 then some ([], c :: cs)
    else if column < e.width c then none
    else (splitAt? e (column - e.width c) cs).map (Prod.map (c :: ·) id)

variable {e : Encoding} {s t : Text}

theorem splitAt?_zero (e : Encoding) (t : Text) : e.splitAt? 0 t = some ([], t) := by
  cases t <;> rfl

theorem splitAt?_units (e : Encoding) (s t : Text) : e.splitAt? (e.units s) (s ++ t) = some (s, t) := by
  induction s with
  | nil => exact splitAt?_zero e t
  | cons c s ih =>
      have hpos := e.width_pos c
      rw [List.cons_append, splitAt?, units, if_neg (by omega), if_neg (by omega),
        Nat.add_sub_cancel_left, ih]
      rfl

end Encoding

namespace Diagnostic

/-- The text that the range of a diagnostic marks, if it is on one line of the source. -/
def marked? (e : Encoding) (source : Text) (d : Diagnostic) : Option Text :=
  if d.start.line = d.stop.line ∧ 0 ≤ d.start.line then
    source.lines[d.start.line.toNat]?.bind fun line =>
      (e.splitAt? d.start.column line).bind fun parts =>
        (e.splitAt? (d.stop.column - d.start.column) parts.2).map Prod.fst
  else none

def quoted? (message : Text) : Option Text :=
  (cut? '\x27' message).bind fun parts => (cut? '\x27' parts.2).map Prod.fst

variable {e : Encoding} {source upper marker rest : Text} {b : ForeignBlock} {d : Diagnostic}

theorem clientPosition_eq (e : Encoding) (upper rest : Text) :
    clientPosition e (upper ++ rest) ((LineIndex.ofText (upper ++ rest)).position upper.length) =
      ⟨upper.count '\n', e.units (lastLine upper)⟩ := by
  have hle : upper.length ≤ (upper ++ rest).length := by
    rw [List.length_append]
    omega
  rw [clientPosition, Encoding.column_position hle, LineIndex.position_eq, List.take_left]
  congr 1
  dsimp only
  omega

theorem marked?_of_stretch (hsource : source = upper ++ (marker ++ rest)) (hm : '\n' ∉ marker)
    (hstart : d.start = clientPosition e source ((LineIndex.ofText source).position upper.length))
    (hstop : d.stop = clientPosition e source
      ((LineIndex.ofText source).position (upper.length + marker.length : Nat))) :
    d.start.line = d.stop.line ∧ d.marked? e source = some marker := by
  have hassoc : source = (upper ++ marker) ++ rest := by rw [hsource, List.append_assoc]
  rw [hsource, clientPosition_eq] at hstart
  rw [← List.length_append, hassoc, clientPosition_eq, List.count_append,
    List.count_eq_zero_of_not_mem hm, Nat.add_zero, lastLine_append hm, Encoding.units_append] at hstop
  have hrun : ∀ c ∈ marker, (c != '\n') = true := fun c hc => by
    simpa using ne_of_mem_of_not_mem hc hm
  refine ⟨by rw [hstart, hstop], ?_⟩
  rw [marked?, hstart, hstop, if_pos ⟨rfl, Int.natCast_nonneg _⟩, Int.toNat_natCast, hsource,
    getElem?_lines, List.takeWhile_append_of_pos hrun, Option.bind_some, Encoding.splitAt?_units,
    Option.bind_some, Nat.add_sub_cancel_left, Encoding.splitAt?_units]
  rfl

theorem quoted?_message {language : Text} (h : '\x27' ∉ language) :
    quoted? ("unterminated '" ++ language ++ "' block (missing '%\x7d')") = some language := by
  have hopen : ("unterminated '" : Text) = "unterminated ".toList ++ ['\x27'] := rfl
  have hclose : ("' block (missing '%\x7d')" : Text) =
      '\x27' :: " block (missing '%\x7d')".toList := rfl
  rw [quoted?, hopen, hclose, List.append_assoc, List.append_assoc, List.singleton_append,
    cut?_append (by decide), Option.bind_some, cut?_append h]
  rfl

/-- A warning about a block marks its head and names its language. -/
theorem ofBlock?_unclosed (e : Encoding) (hb : b ∈ ForeignBlock.find source)
    (ht : b.terminated = false) : ∃ d, ofBlock? e source (.ofText source) b = some d ∧
      d.severity = warning ∧ quoted? d.message = some b.language ∧ d.start.line = d.stop.line ∧
      d.marked? e source = some (b.head.slice source) ∧
      ForeignBlock.IsHead b.language (b.head.slice source) := by
  obtain ⟨marker, hhead, hat, hstop⟩ := (ForeignBlock.find_lines source hb).1.isHead
  have hslice : b.head.slice source = marker := by
    rw [Span.slice, hstop]
    exact (isAt_iff.mp hat).2
  obtain ⟨upper, rest, hsource, hstart⟩ := hat
  have hlanguage : '\x27' ∉ b.language :=
    (ForeignBlock.isLanguage_of_mem_find hb).not_mem (by decide)
  rw [hslice]
  refine ⟨_, if_neg (by simp [ht]), rfl, quoted?_message hlanguage,
    and_assoc.mp ⟨marked?_of_stretch hsource hhead.not_mem_newline ?_ ?_, hhead⟩⟩
  · rw [← hstart]
  · rw [← hstart, ← hstop]

end Diagnostic

namespace Workspace

open Diagnostic ForeignBlock

/-- A document has a warning exactly if a block of it is never closed. There is one then, about the last
block; its range marks the head of this block, and its message names the language. -/
theorem publish_exact (e : Encoding) {w : Workspace} {uri source : Text}
    (h : w.text? uri = some source) : ∃ published,
      w.publish e uri = .diagnostics uri published ∧
      (published = [] ↔ ∀ b ∈ (classify source).blocks, b.terminated = true) ∧
      (published ≠ [] → ∃ d closed last, published = [d] ∧ d.severity = warning ∧
        (classify source).blocks = closed ++ [last] ∧ (∀ b ∈ closed, b.terminated = true) ∧
        last.terminated = false ∧ quoted? d.message = some last.language ∧
        d.start.line = d.stop.line ∧ d.marked? e source = some (last.head.slice source) ∧
        IsHead last.language (last.head.slice source)) := by
  refine ⟨ofClassification e (classify source), by rw [publish, h], ?_⟩
  have hall_closed {blocks : List ForeignBlock} (hall : ∀ b ∈ blocks, b.terminated = true) :
      blocks.filterMap (ofBlock? e source (.ofText source)) = [] :=
    List.filterMap_eq_nil_iff.mpr fun b hb => if_pos (hall b hb)
  have hpublished : ofClassification e (classify source) =
      (find source).filterMap (ofBlock? e source (.ofText source)) := rfl
  have hblocks : (classify source).blocks = find source := rfl
  rw [hpublished, hblocks]
  rcases (placed_find source).unclosed_last with hall | ⟨closed, last, hfind, hall, hlast⟩
  · exact ⟨iff_of_true (hall_closed hall) hall, fun hne => absurd (hall_closed hall) hne⟩
  · have hm : last ∈ find source := hfind ▸ List.mem_append_right _ (List.mem_singleton_self last)
    obtain ⟨d, hd, hseverity, hnamed, hline, hmarked, hhead⟩ := ofBlock?_unclosed e hm hlast
    have hone : (find source).filterMap (ofBlock? e source (.ofText source)) = [d] := by
      rw [hfind, List.filterMap_append, hall_closed hall, List.filterMap_cons, hd]
      rfl
    refine ⟨iff_of_false (by simp [hone]) fun h => ?_, fun _ => ⟨d, closed, last, hone, hseverity,
      hfind, hall, hlast, hnamed, hline, hmarked, hhead⟩⟩
    rw [h last hm] at hlast
    cases hlast

theorem publish_exact_indented : ∃ d, (empty.set "a" (some "  % c \x7b")).publish .utf16 "a" =
    .diagnostics "a" [d] ∧ d.marked? .utf16 "  % c \x7b" = some "% c \x7b".toList := by
  have htext : (empty.set "a" (some "  % c \x7b")).text? "a" = some "  % c \x7b".toList := by
    simp only [text?, set, ↓reduceIte]
  have hfind : (classify "  % c \x7b").blocks = [⟨"c", ⟨2, 7⟩, ⟨7, 7⟩, none⟩] := by decide
  obtain ⟨published, hpublish, hempty, hwarning⟩ := publish_exact .utf16 htext
  rw [hfind] at hempty hwarning
  obtain ⟨d, closed, last, rfl, -, hblocks, -, -, -, -, hmarked, -⟩ :=
    hwarning (hempty.not.mpr (by decide))
  have hlast := congrArg List.getLast? hblocks
  rw [List.getLast?_concat] at hlast
  obtain rfl := Option.some.inj hlast
  exact ⟨d, hpublish, hmarked⟩

end Workspace

end PioSyntax

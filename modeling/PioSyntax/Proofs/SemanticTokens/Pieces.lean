import PioSyntax.Proofs.Classification.Tokens
import PioSyntax.Proofs.Position
import PioSyntax.SemanticTokens

namespace PioSyntax

open Text

namespace Encoding

variable {e : Encoding} {s t source : Text} {n : Nat}

theorem units_append (e : Encoding) (s t : Text) : e.units (s ++ t) = e.units s + e.units t := by
  induction s with
  | nil => exact (Nat.zero_add _).symm
  | cons c s ih => rw [List.cons_append, units, units, ih, Nat.add_assoc]

theorem width_pos (e : Encoding) (c : Char) : 0 < e.width c := by
  cases e with
  | utf8 =>
      simp only [width]
      split
      · omega
      · split
        · omega
        · split <;> omega
  | utf16 =>
      simp only [width]
      split <;> omega
  | utf32 => exact Nat.one_pos

theorem units_eq_zero : e.units s = 0 ↔ s = [] := by
  cases s with
  | nil => simp [units]
  | cons c s =>
      have := e.width_pos c
      simp only [units, reduceCtorEq, iff_false]
      omega

theorem clamp_of_le {length : Nat} (h : n ≤ length) : clamp length n = n := by
  rw [clamp, if_neg (by omega), Int.toNat_natCast, Nat.min_eq_left h]

theorem column_position (h : n ≤ source.length) :
    e.column source ((LineIndex.ofText source).position n) =
      e.units (lastLine (source.take n)) := by
  obtain ⟨t, ht, -⟩ := exists_lastLine (source.take n)
  have hlen := congrArg List.length ht
  rw [List.length_append, List.length_take, Nat.min_eq_left h] at hlen
  have hstart : (source.take n).length - (lastLine (source.take n)).length = t.length := by
    rw [List.length_take, Nat.min_eq_left h]
    omega
  have hoffset : (n : Int) - ((n : Int) - (t.length : Nat) + 1) + 1 = (t.length : Nat) := by omega
  rw [LineIndex.position_eq, column]
  dsimp only
  rw [hstart, hoffset, slice, clamp_of_le (by omega), clamp_of_le h, between, ← List.drop_take]
  conv => lhs; rw [ht, List.drop_left]

end Encoding

def linePieces (offset : Nat) : List Text → List (Nat × Text)
  | [] => []
  | line :: lines =>
    (offset, line.rdropWhile (· == '\r')) :: linePieces (offset + line.length + 1) lines

def Token.pieces (t : Token) : List (Nat × Text) :=
  (linePieces t.span.start (lines t.text)).filter (·.2 ≠ [])

namespace SemanticToken

variable {e : Encoding} {s t source pre post : Text} {type : Nat} {u : Token} {p q : Nat × Text}

def ofPiece (e : Encoding) (source : Text) (type : Nat) (p : Nat × Text) : SemanticToken :=
  ⟨(source.take p.1).count '\n', e.units (lastLine (source.take p.1)), e.units p.2, type⟩

theorem ofLines_cons (line column : Nat) (piece : Text) (pieces : List Text) :
    ofLines e type line column (piece :: pieces) =
      (if piece.rdropWhile (· == '\r') = [] then []
        else [⟨line, column, e.units (piece.rdropWhile (· == '\r')), type⟩]) ++
        ofLines e type (line + 1) 0 pieces := by
  rw [ofLines]
  by_cases h : piece.rdropWhile (· == '\r') = []
  · rw [if_pos h]
    exact if_pos (Encoding.units_eq_zero.mpr h)
  · rw [if_neg h]
    exact if_neg fun hu => h (Encoding.units_eq_zero.mp hu)

theorem length_append_line (pre line : Text) :
    (pre ++ line ++ ['\n']).length = pre.length + line.length + 1 := by
  rw [List.length_append, List.length_append, List.length_singleton]

theorem append_line (pre line s post : Text) :
    (pre ++ line ++ ['\n']) ++ (s ++ post) = pre ++ (line ++ '\n' :: s ++ post) := by simp

theorem ofLines_eq (e : Encoding) (type : Nat) (pre s post : Text) :
    ofLines e type (pre.count '\n') (e.units (lastLine pre)) (lines s) =
      ((linePieces pre.length (lines s)).filter (·.2 ≠ [])).map
        (ofPiece e (pre ++ (s ++ post)) type) := by
  induction s using line_induction generalizing pre with
  | last line hl =>
      rw [lines_eq_singleton hl, ofLines_cons, linePieces, linePieces, List.filter_cons]
      by_cases h : line.rdropWhile (· == '\r') = []
      · simp [h, ofLines]
      · simp [h, ofLines, ofPiece]
  | cons line s hl ih =>
      have hcount : (pre ++ line ++ ['\n']).count '\n' = pre.count '\n' + 1 := by
        simp [List.count_eq_zero_of_not_mem hl]
      have hzero : e.units (lastLine []) = 0 := rfl
      have hrest := ih (pre ++ line ++ ['\n'])
      rw [hcount, length_append_line, lastLine_append_newline, hzero, append_line] at hrest
      rw [lines_append, lines_eq_singleton hl, List.singleton_append, ofLines_cons, linePieces,
        List.filter_cons, hrest]
      by_cases h : line.rdropWhile (· == '\r') = []
      · rw [if_pos h, if_neg (by simpa using h), List.nil_append]
      · rw [if_neg h, if_pos (by simpa using h), List.map_cons, ofPiece, List.take_left]
        rfl

theorem isPart_split (h : u.IsPart source) :
    source = source.take u.span.start ++ (u.text ++ source.drop u.span.stop) ∧
      (source.take u.span.start).length = u.span.start := by
  obtain ⟨hne, hstop, htext⟩ := h
  have hdrop : source.drop u.span.stop = (source.drop u.span.start).drop
      (u.span.stop - u.span.start) := by
    rw [List.drop_drop]
    congr 1
    omega
  rw [htext, Span.slice, between, hdrop, List.take_append_drop, List.take_append_drop,
    List.length_take]
  exact ⟨rfl, by omega⟩

theorem ofToken_eq (h : u.IsPart source) :
    ofToken e source (LineIndex.ofText source) u =
      match u.category.semanticType? with
      | none => []
      | some type => u.pieces.map (ofPiece e source (legend.idxOf type)) := by
  obtain ⟨hsource, hlen⟩ := isPart_split h
  have hstart : u.span.start ≤ source.length := Nat.le_trans (Nat.le_of_lt h.1) h.2.1
  rw [ofToken]
  cases u.category.semanticType? with
  | none => rfl
  | some type =>
      have hlines := ofLines_eq e (legend.idxOf type) (source.take u.span.start) u.text
        (source.drop u.span.stop)
      rw [hlen, ← hsource] at hlines
      dsimp only
      rw [Encoding.column_position hstart, LineIndex.position_eq]
      exact hlines

def InSource (source : Text) (p : Nat × Text) : Prop :=
  p.1 + p.2.length ≤ source.length ∧ source.between p.1 (p.1 + p.2.length) = p.2 ∧ '\n' ∉ p.2

theorem inSource_of_prefix {line text : Text} (h : text <+: line) (hl : '\n' ∉ line) :
    InSource (pre ++ (line ++ post)) (pre.length, text) := by
  obtain ⟨rest, rfl⟩ := h
  refine ⟨?_, ?_, fun hm => hl (List.mem_append_left _ hm)⟩
  · simp only [List.length_append]
    omega
  · rw [between, List.drop_left, List.append_assoc, Nat.add_sub_cancel_left, List.take_left]

theorem mem_linePieces (post : Text) (hp : p ∈ linePieces pre.length (lines s)) :
    pre.length ≤ p.1 ∧ p.1 + p.2.length ≤ pre.length + s.length ∧
      InSource (pre ++ (s ++ post)) p := by
  induction s using line_induction generalizing pre with
  | last line hl =>
      rw [lines_eq_singleton hl, linePieces, linePieces, List.mem_singleton] at hp
      subst hp
      have hprefix := List.rdropWhile_prefix (· == '\r') line
      exact ⟨Nat.le_refl _, Nat.add_le_add_left hprefix.length_le _, inSource_of_prefix hprefix hl⟩
  | cons line s hl ih =>
      rw [lines_append, lines_eq_singleton hl, List.singleton_append, linePieces,
        List.mem_cons] at hp
      rw [length_append_cons]
      rcases hp with rfl | hp
      · have hprefix := List.rdropWhile_prefix (· == '\r') line
        have hlen := hprefix.length_le
        rw [List.append_assoc]
        exact ⟨Nat.le_refl _, by dsimp only; omega, inSource_of_prefix hprefix hl⟩
      · rw [← length_append_line] at hp
        obtain ⟨hstart, hstop, hin⟩ := ih hp
        rw [length_append_line] at hstart hstop
        rw [← append_line]
        exact ⟨by omega, by omega, hin⟩

theorem linePieces_pairwise (n : Nat) (lines : List Text) :
    (linePieces n lines).Pairwise fun p q => p.1 + p.2.length ≤ q.1 := by
  have hlater : ∀ lines n, ∀ q ∈ linePieces n lines, n ≤ q.1 := by
    intro lines
    induction lines with
    | nil => intro n q hq; cases hq
    | cons line lines ih =>
        intro n q hq
        rcases List.mem_cons.mp hq with rfl | hq
        · exact Nat.le_refl _
        · have := ih _ q hq
          omega
  induction lines generalizing n with
  | nil => exact .nil
  | cons line lines ih =>
      refine List.pairwise_cons.mpr ⟨fun q hq => ?_, ih _⟩
      have := hlater _ _ q hq
      have := (List.rdropWhile_prefix (· == '\r') line).length_le
      dsimp only
      omega

theorem mem_pieces (h : u.IsPart source) (hp : p ∈ u.pieces) :
    p.2 ≠ [] ∧ u.span.start ≤ p.1 ∧ p.1 + p.2.length ≤ u.span.stop ∧ InSource source p := by
  obtain ⟨hsource, hlen⟩ := isPart_split h
  obtain ⟨hp, hne⟩ := List.mem_filter.mp hp
  rw [← hlen] at hp
  have hm := mem_linePieces (source.drop u.span.stop) hp
  have htext : u.text.length = u.span.stop - u.span.start := by
    rw [h.2.2, Span.slice, length_between h.2.1]
  have := h.1
  rw [hlen, ← hsource] at hm
  exact ⟨by simpa using hne, hm.1, by omega, hm.2.2⟩

end SemanticToken

end PioSyntax

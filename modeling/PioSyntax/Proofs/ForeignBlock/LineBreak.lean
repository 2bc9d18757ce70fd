import PioSyntax.Proofs.ForeignBlock.Segments
import PioSyntax.Proofs.Rule.Separator

namespace PioSyntax

open Text

namespace ForeignBlock

variable {stop stop' start offset n : Nat} {place : Place} {lines lines' : List Text}
variable {blocks blocks' : List ForeignBlock} {b : ForeignBlock} {s t : Text}

def Place.shift (n : Nat) : Place → Place
  | .outside => .outside
  | .inside language head start => .inside language (head.shift n) (n + start)

theorem Scans.shift (h : Scans stop place offset lines blocks) :
    Scans (n + stop) (place.shift n) (n + offset) lines (blocks.map (ForeignBlock.shift n)) := by
  induction h with
  | finished => exact .finished
  | unclosed => exact .unclosed
  | opened h _ ih =>
      simp only [Place.shift, Span.shift_shift, ← Nat.add_min_add_left, ← Nat.add_assoc] at ih
      exact .opened h ih
  | ignored h _ ih => exact .ignored h (by simpa only [Place.shift, ← Nat.add_assoc] using ih)
  | closed h _ ih =>
      simp only [List.map_cons, ForeignBlock.shift, Option.map_some, Span.shift_shift]
      exact .closed h (by simpa only [Place.shift, ← Nat.add_assoc] using ih)
  | kept h _ ih => exact .kept h (by simpa only [Place.shift, ← Nat.add_assoc] using ih)

/-- A reader that has closed all blocks of a text reads on as if the rest stood alone. -/
theorem Scans.append (h : Scans stop place offset lines blocks)
    (ht : ∀ b ∈ blocks, b.terminated = true) (hlen : offset + linesSize lines = stop + 1)
    (hs : stop ≤ stop') (h' : Scans stop' .outside (stop + 1) lines' blocks') :
    Scans stop' place offset (lines ++ lines') (blocks ++ blocks') := by
  induction h with
  | finished =>
      obtain rfl := hlen
      exact h'
  | unclosed => exact absurd (ht _ List.mem_cons_self) (by simp [terminated])
  | @opened offset line language marker lines blocks h rest ih =>
      rw [linesSize_cons] at hlen
      have hnext := ih ht (by omega)
      cases lines with
      | nil =>
          -- the body runs to the end
          cases rest
          exact absurd (ht _ List.mem_cons_self) (by simp [terminated])
      | cons next lines =>
          rw [linesSize_cons] at hlen
          rw [Nat.min_eq_left (by omega)] at hnext
          exact .opened h (by rwa [Nat.min_eq_left (by omega)])
  | ignored h _ ih =>
      rw [linesSize_cons] at hlen
      exact .ignored h (ih ht (by omega))
  | closed h _ ih =>
      rw [linesSize_cons] at hlen
      rw [List.forall_mem_cons] at ht
      exact .closed h (ih ht.2 (by omega))
  | kept h _ ih =>
      rw [linesSize_cons] at hlen
      exact .kept h (ih ht (by omega))

theorem find_append (ht : ∀ b ∈ find s, b.terminated = true) :
    find (s ++ '\n' :: t) = find s ++ (find t).map (shift (s.length + 1)) := by
  have hjoined := scans_find (s ++ '\n' :: t)
  rw [lines_append, length_append_cons] at hjoined
  refine hjoined.unique ((scans_find s).append ht ?_ (by omega) (scans_find t).shift)
  rw [linesSize_lines, Nat.zero_add]

theorem spanToken_shift {c : Category} {span : Span} :
    spanToken (s ++ t) c (span.shift s.length) =
      (spanToken t c span).map (Token.shift s.length) := by
  simp only [spanToken, Span.isEmpty_shift, Span.slice_shift]
  split <;> rfl

theorem tokens_shift :
    (b.shift s.length).tokens (s ++ t) = (b.tokens t).map (Token.shift s.length) := by
  rw [tokens_eq, tokens_eq, List.map_append, List.map_append, ← spanToken_shift, ← spanToken_shift]
  cases h : b.tail with
  | none => simp [shift, h]
  | some tail => simp [shift, h, spanToken_shift]

theorem spanToken_append {c : Category} {span : Span} (h : span.stop ≤ s.length) :
    spanToken (s ++ t) c span = spanToken s c span := by
  rw [spanToken, spanToken, Span.slice, between_append_left h, Span.slice]

theorem Placed.tokens_append (h : Placed stop start blocks) (hs : stop ≤ s.length) :
    blocks.flatMap (·.tokens (s ++ t)) = blocks.flatMap (·.tokens s) := by
  induction h with
  | nil => rfl
  | @unclosed start language head body _ hh hb hn he =>
      have hhead : head.stop ≤ s.length := by omega
      have hbody : body.stop ≤ s.length := by omega
      simp only [List.flatMap_cons, List.flatMap_nil, tokens_eq, Option.elim_none]
      rw [spanToken_append hhead, spanToken_append hbody]
  | @closed start language head body tail blocks _ hh hb hn ht hm he _ ih =>
      have hhead : head.stop ≤ s.length := by omega
      have hbody : body.stop ≤ s.length := by omega
      have htail : tail.stop ≤ s.length := Nat.le_trans he hs
      rw [List.flatMap_cons, List.flatMap_cons, ih, tokens_eq, tokens_eq]
      simp only [Option.elim_some]
      rw [spanToken_append hhead, spanToken_append hbody, spanToken_append htail]

end ForeignBlock

theorem Segment.ofSource_append {s t : Text} {start stop : Nat} (h : start ≤ s.length)
    (hs : stop ≤ s.length) : ofSource (s ++ t) start stop = ofSource s start stop := by
  simp only [ofSource, between_append_left hs, mk.injEq, and_true, true_and]
  split
  · rfl
  · exact List.getElem?_append_left (by omega)

theorem Segment.ofSource_newline {s t : Text} {start stop : Nat} (h : start ≤ s.length) :
    ofSource (s ++ '\n' :: t) start (s.length + 1 + stop) =
      { ofSource s start s.length with
        text := (ofSource s start s.length).text ++ '\n' :: (ofSource t 0 stop).text } := by
  have hbefore : (ofSource (s ++ '\n' :: t) start s.length).before =
      (ofSource s start s.length).before := by rw [ofSource_append h (Nat.le_refl _)]
  have htext : (s ++ '\n' :: t).between start (s.length + 1 + stop) =
      s.between start s.length ++ '\n' :: t.between 0 stop := by
    rw [Nat.add_assoc, between_append h, Nat.add_comm 1]
    rfl
  simp only [ofSource] at hbefore ⊢
  rw [hbefore, htext]

theorem Segment.ofSource_shift {s t : Text} {start stop : Nat} :
    ofSource (s ++ '\n' :: t) (s.length + 1 + start) (s.length + 1 + stop) =
      ⟨s.length + 1 + start, if start = 0 then some '\n' else t[start - 1]?,
        t.between start stop⟩ := by
  have htext : (s ++ '\n' :: t).between (s.length + 1 + start) (s.length + 1 + stop) =
      t.between start stop := by
    rw [Nat.add_assoc, Nat.add_assoc, between_append_right, Nat.add_comm 1, Nat.add_comm 1]
    simp [between]
  have hbefore : (s ++ '\n' :: t)[s.length + 1 + start - 1]? =
      if start = 0 then some '\n' else t[start - 1]? := by
    have hindex : s.length + 1 + start - 1 - s.length = start := by omega
    rw [List.getElem?_append_right (by omega), hindex]
    cases start <;> rfl
  rw [ofSource, if_neg (by omega), htext, hbefore]

namespace ForeignBlock

open Pattern

variable {r : Rule} {s t : Text} {start stop : Nat} {blocks blocks' : List ForeignBlock}

theorem candidates_ofSource_shift :
    r.candidates (.ofSource (s ++ '\n' :: t) (s.length + 1 + start) (s.length + 1 + stop)) =
      (r.candidates (.ofSource t start stop)).map (Token.shift (s.length + 1)) := by
  rw [Segment.ofSource_shift, Rule.candidates_shift, Segment.ofSource]
  split
  · rw [Rule.candidates_after_newline]
  · rfl

theorem candidates_ofSource_newline (hp : r.pattern.Separates '\n')
    (hs : start ≤ s.length)
    (hc : r.pattern = .comment →
      ∀ f ∈ r.pattern.find (.ofSource s start s.length), IsClosed f.text) :
    r.candidates (.ofSource (s ++ '\n' :: t) start (s.length + 1 + stop)) =
      r.candidates (.ofSource s start s.length) ++
        (r.candidates (.ofSource t 0 stop)).map (Token.shift (s.length + 1)) := by
  have hstart : start + (s.between start s.length).length + 1 = s.length + 1 + 0 := by
    rw [length_between (Nat.le_refl _)]
    omega
  rw [Segment.ofSource_newline hs]
  simp only [Segment.ofSource] at hc ⊢
  rw [Rule.candidates_append hp hc, hstart, Rule.candidates_after_newline, Rule.candidates_shift]
  rfl

theorem tail_elim_shift {b : ForeignBlock} {n : Nat} :
    (b.shift n).tail.elim (n + stop) Span.stop = n + b.tail.elim stop Span.stop := by
  rw [shift]
  cases b.tail <;> rfl

theorem candidates_segmentsFrom_shift :
    (segmentsFrom (s ++ '\n' :: t) (s.length + 1 + start)
        (blocks.map (shift (s.length + 1)))).flatMap r.candidates =
      ((segmentsFrom t start blocks).flatMap r.candidates).map (Token.shift (s.length + 1)) := by
  induction blocks generalizing start with
  | nil =>
      simp only [List.map_nil, segmentsFrom, List.flatMap_singleton, length_append_cons,
        candidates_ofSource_shift]
  | cons b blocks ih =>
      simp only [List.map_cons, segmentsFrom, List.flatMap_cons, List.map_append,
        length_append_cons, tail_elim_shift, ih]
      exact congrArg (· ++ _) candidates_ofSource_shift

/-- What a rule proposes in the segments of two texts with a line feed between them, unless a
comment is open there. -/
theorem Placed.candidates_append (h : Placed s.length start blocks)
    (hs : start ≤ s.length) (ht : ∀ b ∈ blocks, b.terminated = true)
    (hp : r.pattern.Separates '\n')
    (hc : r.pattern = .comment → ∀ segment ∈ segmentsFrom s start blocks,
      segment.stop = s.length → ∀ f ∈ r.pattern.find segment, IsClosed f.text) :
    (segmentsFrom (s ++ '\n' :: t) start
        (blocks ++ blocks'.map (shift (s.length + 1)))).flatMap r.candidates =
      (segmentsFrom s start blocks).flatMap r.candidates ++
        ((segmentsFrom t 0 blocks').flatMap r.candidates).map (Token.shift (s.length + 1)) := by
  induction h with
  | nil =>
      have hlast (stop : Nat) :
          r.candidates (.ofSource (s ++ '\n' :: t) _ (s.length + 1 + stop)) = _ :=
        candidates_ofSource_newline hp hs fun hr =>
          hc hr _ List.mem_cons_self (Segment.stop_ofSource hs (Nat.le_refl _))
      cases blocks' with
      | nil =>
          simp only [List.map_nil, List.append_nil, segmentsFrom, List.flatMap_singleton,
            length_append_cons, hlast]
      | cons b blocks' =>
          simp only [List.nil_append, List.map_cons, segmentsFrom, List.flatMap_cons,
            List.flatMap_nil, List.append_nil, List.map_append, length_append_cons,
            tail_elim_shift, candidates_segmentsFrom_shift]
          rw [← List.append_assoc, ← hlast]
          rfl
  | unclosed => exact absurd (ht _ List.mem_cons_self) (by simp [terminated])
  | @closed start language head body tail blocks hstart hh hb hn htail hm he hrest ih =>
      rw [List.forall_mem_cons] at ht
      have hrest := ih he ht.2 fun hr segment hm => hc hr segment (List.mem_cons_of_mem _ hm)
      simp only [List.cons_append, segmentsFrom, List.flatMap_cons, Option.elim_some]
      rw [Segment.ofSource_append hs (by omega), hrest, List.append_assoc]

end ForeignBlock

end PioSyntax

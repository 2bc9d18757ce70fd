import PioSyntax.Proofs.ForeignBlock.Segments
import PioSyntax.Proofs.Rule.Spelling

namespace PioSyntax

open Text

namespace ForeignBlock

variable {before : Option Char} {s t : Text} {place : Place} {offset : Nat} {o : Opening}
variable {e : Closing}

theorem opening?_bounds (h : opening? before t = some o) :
    (o.marker.start < o.marker.stop ∧ o.marker.stop ≤ t.length) ∧ 0 < o.size ∧
      o.size ≤ t.length := by
  obtain ⟨-, line, rest, rfl, hline, -, hsize⟩ := opening?_sound h
  have hb := hline.bounds
  rw [List.length_append]
  omega

theorem closing?_bounds (h : closing? before t = some e) :
    (e.marker.start < e.marker.stop ∧ e.marker.stop ≤ t.length) ∧ 0 < e.size ∧
      e.size ≤ t.length := by
  obtain ⟨-, line, rest, rfl, hline, -, hsize⟩ := closing?_sound h
  have hb := hline.bounds
  rw [List.length_append]
  omega

/-- The search passes over a stretch in which there is no delimiter. -/
theorem findFrom_pass_append (h : ∀ u v, s = u ++ v → v ≠ [] →
    place.Passes (charBefore before u) (v ++ t)) :
    findFrom place 0 before offset (s ++ t) =
      findFrom place 0 (charBefore before s) (offset + s.length) t := by
  induction s generalizing before offset with
  | nil => rfl
  | cons c s ih =>
      have hc : place.Passes before (c :: (s ++ t)) := h [] (c :: s) rfl (by simp)
      have hrest : ∀ u v, s = u ++ v → v ≠ [] → place.Passes (charBefore (some c) u) (v ++ t) := by
        intro u v hs hv
        rw [← charBefore_cons before]
        exact h (c :: u) v (by rw [hs, List.cons_append]) hv
      rw [List.cons_append, findFrom_pass hc, ih hrest, charBefore_cons, List.length_cons,
        Nat.add_assoc, Nat.add_comm 1]

end ForeignBlock

namespace Spelling

open ForeignBlock

variable (R : Spelling) {source t : Text} {rename : Text → Text} {before : Option Char}
variable {p : Place} {start stop offset skip n : Nat} {blocks : List ForeignBlock} {part : Span}
variable {d e : Char} {es : Text} {c : Category}

def opening (rename : Text → Text) (t : Text) (o : Opening) : Opening :=
  ⟨rename o.language, R.inner t o.marker, (R.text (t.take o.size)).length⟩

def closing (t : Text) (e : Closing) : Closing :=
  ⟨R.inner t e.marker, (R.text (t.take e.size)).length⟩

def place (source : Text) (rename : Text → Text) : Place → Place
  | .outside => .outside
  | .inside language head start =>
    .inside (rename language) (R.span source head) (R.move source start)

def block (source : Text) (rename : Text → Text) (b : ForeignBlock) : ForeignBlock :=
  ⟨rename b.language, R.span source b.head, R.span source b.body, b.tail.map (R.span source)⟩

/-- Blocks open and close with the same lines of a source whether it is spelled or not, but their
languages are renamed. -/
structure KeepsBlocks (source : Text) (rename : Text → Text) : Prop where
  opening : ∀ before t, t ⊆ source →
    opening? (R.before before) (R.text t) = (opening? before t).map (R.opening rename t)
  closing : ∀ before t, t ⊆ source →
    closing? (R.before before) (R.text t) = (closing? before t).map (R.closing t)
  within : ∀ c s t, R.spell c = s ++ t → s ≠ [] → t ≠ [] → Pattern.startsLine s.getLast? = false

variable {R}

/-- Nothing is found within the spelling of a character, if nothing is found where it begins. -/
theorem KeepsBlocks.findFrom_spell (h : R.KeepsBlocks source rename)
    (hp : p.Passes before (R.spell d ++ t)) :
    findFrom p 0 before offset (R.spell d ++ t) =
      findFrom p 0 (charBefore before (R.spell d)) (offset + (R.spell d).length) t := by
  apply findFrom_pass_append
  intro u v huv hv
  by_cases hu : u = []
  · subst hu
    rw [List.nil_append] at huv
    rw [← huv]
    exact hp
  · apply passes_of_not_startsLine
    rw [charBefore, List.getLast?_eq_some_getLast hu, Option.some_or,
      ← List.getLast?_eq_some_getLast hu]
    exact h.within d u v huv hu hv

/-- The search after the first character of a delimiter, when this is spelled. -/
theorem findFrom_rest (before : Option Char) (he : R.spell d = e :: es) :
    findFrom p ((R.text ((d :: t).take (n + 1))).length - 1) (some e) (start + 1)
        (es ++ R.text t) =
      findFrom p (R.text (t.take n)).length (charBefore before (R.spell d))
        (start + (R.spell d).length) (R.text t) := by
  rw [R.length_text_take_succ he, findFrom_skip_add, he, charBefore_cons, List.length_cons,
    Nat.add_assoc, Nat.add_comm 1]

theorem KeepsBlocks.findFrom (h : R.KeepsBlocks source rename) (before : Option Char)
    (ht : IsAt source offset t) (hs : skip ≤ t.length) :
    findFrom (R.place source rename p) (R.text (t.take skip)).length (R.before before)
        (R.move source offset) (R.text t) =
      (findFrom p skip before offset t).map (R.block source rename) := by
  induction t generalizing p skip before offset with
  | nil =>
      cases p with
      | outside => rfl
      | inside => rfl
  | cons d t ih =>
      have hlater {p : Place} {skip : Nat} (hs : skip ≤ t.length) :
          findFrom (R.place source rename p) (R.text (t.take skip)).length
            (charBefore (R.before before) (R.spell d)) (R.move source offset + (R.spell d).length)
            (R.text t) =
            (findFrom p skip (some d) (offset + 1) t).map (R.block source rename) := by
        rw [charBefore_spell, ← R.move_succ ht]
        exact ih (some d) ht.tail hs
      cases skip with
      | succ skip =>
          rw [List.take_succ_cons, text_cons, text_cons, List.length_append, findFrom_skip_add]
          exact hlater (Nat.le_of_succ_le_succ hs)
      | zero =>
          obtain ⟨e, es, he⟩ := List.exists_cons_of_ne_nil (R.spell_ne_nil d)
          rw [List.take_zero, text_nil, List.length_nil, text_cons]
          cases p with
          | outside =>
              have hsame := h.opening before (d :: t) ht.subset
              rw [text_cons] at hsame
              cases ho : opening? before (d :: t) with
              | none =>
                  rw [ho, Option.map_none] at hsame
                  rw [place, h.findFrom_spell (p := .outside) hsame]
                  simp only [ForeignBlock.findFrom, ho]
                  exact hlater (p := .outside) (Nat.zero_le _)
              | some o =>
                  obtain ⟨⟨hmarker, hstop⟩, hpos, hsize⟩ := opening?_bounds ho
                  obtain ⟨n, hn⟩ := Nat.exists_eq_succ_of_ne_zero (Nat.ne_of_gt hpos)
                  rw [hn] at hsize
                  rw [ho, Option.map_some, he, List.cons_append] at hsame
                  rw [place, he, List.cons_append]
                  simp only [ForeignBlock.findFrom, ho, hsame, Spelling.opening, hn]
                  rw [findFrom_rest (R.before before) he,
                    inner_shift ht (Nat.le_of_lt hmarker) hstop, ← R.move_add_take ht hsize]
                  exact hlater (p := .inside o.language (o.marker.shift offset) (offset + n.succ))
                    (Nat.le_of_succ_le_succ hsize)
          | inside language head start =>
              have hsame := h.closing before (d :: t) ht.subset
              rw [text_cons] at hsame
              cases hc : closing? before (d :: t) with
              | none =>
                  rw [hc, Option.map_none] at hsame
                  rw [place, h.findFrom_spell (p := .inside ..) hsame]
                  simp only [ForeignBlock.findFrom, hc]
                  exact hlater (p := .inside language head start) (Nat.zero_le _)
              | some o =>
                  obtain ⟨⟨hmarker, hstop⟩, hpos, hsize⟩ := closing?_bounds hc
                  obtain ⟨n, hn⟩ := Nat.exists_eq_succ_of_ne_zero (Nat.ne_of_gt hpos)
                  rw [hn] at hsize
                  rw [hc, Option.map_some, he, List.cons_append] at hsame
                  rw [place, he, List.cons_append]
                  simp only [ForeignBlock.findFrom, hc, hsame, Spelling.closing, hn]
                  rw [findFrom_rest (R.before before) he,
                    inner_shift ht (Nat.le_of_lt hmarker) hstop, List.map_cons]
                  exact congrArg (_ :: ·) (hlater (p := .outside) (Nat.le_of_succ_le_succ hsize))

theorem KeepsBlocks.find (h : R.KeepsBlocks source rename) :
    ForeignBlock.find (R.text source) = (ForeignBlock.find source).map (R.block source rename) := by
  have h₀ := h.findFrom none (isAt_self source) (Nat.zero_le _) (p := .outside)
  rwa [List.take_zero, text_nil, List.length_nil, move_zero] at h₀

theorem ofSource_text (hs : start ≤ stop) (he : stop ≤ source.length) :
    Segment.ofSource (R.text source) (R.move source start) (R.move source stop) =
      R.segment source (.ofSource source start stop) := by
  have hstart : start ≤ source.length := Nat.le_trans hs he
  have hlen : R.move source start ≤ (R.text source).length := by
    rw [← move_length, move_le_move]
    exact hstart
  have hbefore : (Segment.ofSource (R.text source) (R.move source start)
      (R.move source stop)).before = R.before (Segment.ofSource source start stop).before := by
    rw [Segment.before_ofSource hlen, Segment.before_ofSource hstart, R.move_of_le hstart,
      take_text, getLast?_text]
  have htext : (R.text source).between (R.move source start) (R.move source stop) =
      R.text (source.between start stop) := by
    rw [R.move_of_le hstart, R.move_of_le he, between_text _ _ hs]
  rw [segment, ← hbefore, Segment.ofSource, htext]
  rfl

theorem segmentsFrom_text (R : Spelling) (rename : Text → Text)
    (h : Placed source.length start blocks) (hs : start ≤ source.length) :
    segmentsFrom (R.text source) (R.move source start) (blocks.map (R.block source rename)) =
      (segmentsFrom source start blocks).map (R.segment source) := by
  induction h with
  | nil =>
      rw [List.map_nil, segmentsFrom, segmentsFrom, ← move_length, ofSource_text hs (Nat.le_refl _)]
      rfl
  | unclosed hstart hh hb hn he =>
      simp only [List.map_cons, List.map_nil, segmentsFrom, block, Option.map_none,
        Option.elim_none, Spelling.span, ← move_length]
      rw [ofSource_text hstart (by omega), ofSource_text (Nat.le_refl _) (Nat.le_refl _)]
  | closed hstart hh hb hn ht hm he _ ih =>
      have hrest := ih he
      simp only [List.map_cons, segmentsFrom, block, Option.map_some, Option.elim_some,
        Spelling.span]
      rw [ofSource_text hstart (by omega), ← hrest]

theorem spanToken_text (h : part.stop ≤ source.length) :
    spanToken (R.text source) c (R.span source part) =
      (spanToken source c part).map (R.token source) := by
  have hempty : (R.span source part).IsEmpty ↔ part.IsEmpty := move_le_move R
  rw [spanToken, spanToken]
  by_cases he : part.IsEmpty
  · rw [if_pos he, if_pos (hempty.mpr he), List.map_nil]
  · rw [if_neg he, if_neg (hempty.not.mpr he), List.map_singleton,
      R.slice_text (Nat.le_of_not_le he) h]
    rfl

theorem tokens_text (h : Placed source.length start blocks) :
    (blocks.map (R.block source rename)).flatMap (·.tokens (R.text source)) =
      (blocks.flatMap (·.tokens source)).map (R.token source) := by
  induction h with
  | nil => rfl
  | unclosed hstart hh hb hn he =>
      simp only [List.map_cons, List.map_nil, List.flatMap_cons, List.flatMap_nil, tokens_eq, block,
        Option.map_none, Option.elim_none, List.append_nil, List.map_append]
      rw [spanToken_text (by omega), spanToken_text (by omega)]
  | closed hstart hh hb hn ht hm he _ ih =>
      rw [List.map_cons, List.flatMap_cons, List.flatMap_cons, ih, List.map_append, tokens_eq,
        tokens_eq]
      simp only [block, Option.map_some, Option.elim_some, List.map_append]
      rw [spanToken_text (by omega), spanToken_text (by omega), spanToken_text he]

end Spelling

end PioSyntax

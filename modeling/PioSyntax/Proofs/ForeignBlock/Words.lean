import PioSyntax.Proofs.ForeignBlock.Markers
import PioSyntax.Proofs.ForeignBlock.Segments
import PioSyntax.Proofs.Pattern.Words

namespace PioSyntax

open Text Pattern

namespace ForeignBlock

structure Breaks (source : Text) (b : ForeignBlock) : Prop where
  head : BreaksAt none source b.head.start ∧ BreaksAt none source b.head.stop
  body : BreaksAt none source b.body.start ∧ BreaksAt none source b.body.stop
  tail : ∀ s, b.tail = some s → BreaksAt none source s.start ∧ BreaksAt none source s.stop

variable {source text pre line rest language : Text} {before : Option Char} {start stop : Nat}
variable {blocks : List ForeignBlock} {b : ForeignBlock} {s w : Span}
variable {segment : Segment} {t : Token}

theorem LineEnds.breaksAt (h : LineEnds rest) :
    BreaksAt before (line ++ rest) (line.length + min 1 rest.length) := by
  rcases lineEnds_iff.mp h with rfl | ⟨t, rfl⟩
  · exact (breaksAt_iff rfl rfl).mpr (.inr stops_nil)
  · apply (breaksAt_iff (s := line ++ ['\n']) (t := t) (by simp) (by simp)).mpr
    exact .inl (by rw [charBefore_append]; rfl)

theorem opening?_breaksAt {o : Opening} (h : opening? before text = some o) :
    (BreaksAt before text o.marker.start ∧ BreaksAt before text o.marker.stop) ∧
      BreaksAt before text o.size := by
  obtain ⟨-, line, rest, rfl, hline, hr, hsize⟩ := opening?_sound h
  rw [hsize]
  refine ⟨?_, hr.breaksAt⟩
  generalize o.marker = marker at hline
  cases hline with
  | @mk indent gap language space final cr =>
      constructor
      · apply (breaksAt_iff (s := indent) (List.append_assoc _ _ _) rfl).mpr
        exact .inr rfl
      · apply (breaksAt_iff (s := indent ++ '%' :: (gap ++ (o.language ++ (space ++ ['{']))))
          (t := final ++ (cr ++ rest)) (by simp) (by simp; omega)).mpr
        exact .inl (by simp only [charBefore_append, charBefore_cons]; rfl)

theorem closing?_breaksAt {o : Closing} (h : closing? before text = some o) :
    BreaksAt before text 0 ∧ BreaksAt before text o.marker.start ∧
      BreaksAt before text o.marker.stop := by
  obtain ⟨hl, line, rest, rfl, hline, -, -⟩ := closing?_sound h
  generalize o.marker = marker at hline
  refine ⟨.inl (startsWord_of_blanks hl fun _ hc => nomatch hc), ?_⟩
  cases hline with
  | @mk indent final cr =>
      constructor
      · apply (breaksAt_iff (s := indent) (List.append_assoc _ _ _) rfl).mpr
        exact .inr rfl
      · apply (breaksAt_iff (s := indent ++ ['%', '}']) (t := final ++ (cr ++ rest)) (by simp)
          (by simp)).mpr
        exact .inl (by rw [charBefore_append]; rfl)

theorem breaksAt_rest {n : Nat} (h : source = pre ++ text) (hn : BreaksAt pre.getLast? text n) :
    BreaksAt none source (pre.length + n) := by
  rw [h, breaksAt_append_right, charBefore, Option.or_none]
  exact hn

theorem Opens.breaks {head : Span} (h : Opens source language head start) :
    (BreaksAt none source head.start ∧ BreaksAt none source head.stop) ∧
      BreaksAt none source start := by
  cases h with
  | mk hs ho =>
      obtain ⟨⟨hstart, hstop⟩, hsize⟩ := opening?_breaksAt ho
      exact ⟨⟨breaksAt_rest hs hstart, breaksAt_rest hs hstop⟩, breaksAt_rest hs hsize⟩

theorem Closes.breaks {tail : Option Span} (h : Closes source stop tail) :
    BreaksAt none source stop ∧
      ∀ s, tail = some s → BreaksAt none source s.start ∧ BreaksAt none source s.stop := by
  cases h with
  | finished =>
      refine ⟨breaksAt_length none source, ?_⟩
      rintro _ ⟨⟩
  | closed hs ht =>
      obtain ⟨hzero, hstart, hstop⟩ := closing?_breaksAt ht
      refine ⟨breaksAt_rest hs hzero, ?_⟩
      rintro _ ⟨⟩
      exact ⟨breaksAt_rest hs hstart, breaksAt_rest hs hstop⟩

theorem find_breaks (source : Text) : ∀ b ∈ find source, b.Breaks source := by
  intro b hb
  obtain ⟨hopens, hcloses⟩ := find_lines source hb
  exact ⟨hopens.breaks.1, ⟨hopens.breaks.2, hcloses.breaks.1⟩, hcloses.breaks.2⟩

theorem Breaks.token (h : b.Breaks source) (ht : t ∈ b.tokens source) :
    BreaksAt none source t.span.start ∧ BreaksAt none source t.span.stop := by
  rw [tokens_eq, List.mem_append, List.mem_append] at ht
  rcases ht with ht | ht | ht
  · obtain ⟨-, rfl⟩ := mem_spanToken.mp ht
    exact h.head
  · obtain ⟨-, rfl⟩ := mem_spanToken.mp ht
    exact h.body
  · cases hb : b.tail with
    | none => simp [hb] at ht
    | some s =>
        rw [hb] at ht
        obtain ⟨-, rfl⟩ := mem_spanToken.mp ht
        exact h.tail s hb

theorem Placed.exists_segment (h : Placed source.length start blocks) (hs : start ≤ w.start)
    (hw : w.start < w.stop) (hstop : w.stop ≤ source.length)
    (hfree : ∀ b ∈ blocks, ¬ w.Overlaps b.region) :
    ∃ segment ∈ segmentsFrom source start blocks,
      segment.start ≤ w.start ∧ w.stop ≤ segment.stop := by
  induction h with
  | @nil start =>
      refine ⟨_, List.mem_singleton_self _, hs, ?_⟩
      rw [Segment.stop_ofSource (by omega) (Nat.le_refl _)]
      exact hstop
  | @unclosed start language head body hstart hh hbody hn he =>
      have hapart := hfree _ (List.mem_singleton_self _)
      rw [Span.overlaps_iff] at hapart
      simp only [region, Option.getD_none] at hapart
      refine ⟨_, List.mem_cons_self, hs, ?_⟩
      rw [Segment.stop_ofSource hstart (by omega)]
      omega
  | @closed start language head body tail blocks hstart hh hbody hn htail hm he hrest ih =>
      rw [List.forall_mem_cons, Span.overlaps_iff] at hfree
      obtain ⟨hapart, hfree⟩ := hfree
      simp only [region, Option.getD_some] at hapart
      by_cases hlow : w.stop ≤ head.start
      · refine ⟨_, List.mem_cons_self, hs, ?_⟩
        rw [Segment.stop_ofSource hstart (by omega)]
        exact hlow
      · obtain ⟨segment, hm, h⟩ := ih (by omega) hfree
        exact ⟨segment, List.mem_cons_of_mem _ hm, h⟩

theorem Placed.segment_stop (h : Placed source.length start blocks) (hs : start ≤ source.length)
    (hm : segment ∈ segmentsFrom source start blocks) :
    segment.stop = source.length ∨ ∃ b ∈ blocks, segment.stop = b.head.start := by
  induction h with
  | nil =>
      obtain rfl := List.mem_singleton.mp hm
      exact .inl (Segment.stop_ofSource hs (Nat.le_refl _))
  | @unclosed start language head body hstart hh hb hn he =>
      have hle : head.start ≤ source.length := by omega
      simp only [segmentsFrom, Option.elim_none, List.mem_cons, List.not_mem_nil, or_false] at hm
      rcases hm with rfl | rfl
      · exact .inr ⟨_, List.mem_cons_self, Segment.stop_ofSource hstart hle⟩
      · exact .inl (Segment.stop_ofSource (Nat.le_refl _) (Nat.le_refl _))
  | @closed start language head body tail blocks hstart hh hb hn ht hm' he _ ih =>
      have hle : head.start ≤ source.length := by omega
      rcases List.mem_cons.mp hm with rfl | hm
      · exact .inr ⟨_, List.mem_cons_self, Segment.stop_ofSource hstart hle⟩
      · refine (ih he hm).imp_right ?_
        rintro ⟨b, hb, hstop⟩
        exact ⟨b, List.mem_cons_of_mem _ hb, hstop⟩

theorem segment_breaksAt (hs : segment ∈ segmentsFrom source 0 (find source)) :
    BreaksAt none source segment.stop := by
  rcases (placed_find source).segment_stop (Nat.zero_le _) hs with h | ⟨b, hb, h⟩
  · rw [h]
    exact breaksAt_length none source
  · rw [h]
    exact (find_breaks source b hb).head.1

end ForeignBlock

end PioSyntax

import PioSyntax.Proofs.ForeignBlock.Words
import PioSyntax.Proofs.Text.LastLine

namespace PioSyntax.ForeignBlock

open Text Pattern

/-- A stretch of the source between regions: it meets none, and goes on to the next one or to the end
of the source on either side. -/
structure IsScanned (source : Text) (s : Span) : Prop where
  start_lt : s.start < s.stop
  stop_le : s.stop ≤ source.length
  outside : ∀ b ∈ find source, ¬ s.Overlaps b.region
  left : s.start = 0 ∨ ∃ b ∈ find source, s.start = b.region.stop
  right : s.stop = source.length ∨ ∃ b ∈ find source, s.stop = b.region.start

variable {source : Text} {start stop : Nat} {blocks : List ForeignBlock} {b : ForeignBlock}
variable {segment : Segment} {s t : Span} {upper body : Text} {p : Char → Bool}

theorem Placed.region_bounds (h : Placed stop start blocks) (hb : b ∈ blocks) :
    start ≤ b.region.start ∧ b.region.start < b.region.stop ∧ b.region.stop ≤ stop := by
  induction h with
  | nil => cases hb
  | unclosed hs hh hbody hn he =>
      obtain rfl := List.mem_singleton.mp hb
      simp only [region, Option.getD_none]
      omega
  | closed hs hh hbody hn ht hm he _ ih =>
      rcases List.mem_cons.mp hb with rfl | hb
      · simp only [region, Option.getD_some]
        omega
      · have := ih hb
        omega

theorem Placed.segment_start (h : Placed source.length start blocks)
    (hm : segment ∈ segmentsFrom source start blocks) :
    segment.start = start ∨ ∃ b ∈ blocks, segment.start = b.region.stop := by
  induction h with
  | nil =>
      obtain rfl := List.mem_singleton.mp hm
      exact .inl rfl
  | unclosed hs hh hb hn he =>
      simp only [segmentsFrom, Option.elim_none, List.mem_cons, List.not_mem_nil, or_false] at hm
      rcases hm with rfl | rfl
      · exact .inl rfl
      · exact .inr ⟨_, List.mem_cons_self, he.symm⟩
  | closed hs hh hb hn ht hm' he _ ih =>
      rcases List.mem_cons.mp hm with rfl | hm
      · exact .inl rfl
      · refine .inr ?_
        rcases ih hm with hstart | ⟨b, hb, hstart⟩
        · exact ⟨_, List.mem_cons_self, hstart⟩
        · exact ⟨b, List.mem_cons_of_mem _ hb, hstart⟩

/-- The segments that are not empty are the scanned stretches. -/
theorem isScanned_iff : IsScanned source s ↔ s.start < s.stop ∧
    ∃ segment ∈ segmentsFrom source 0 (find source),
      segment.start = s.start ∧ segment.stop = s.stop := by
  have hplaced := placed_find source
  constructor
  · intro h
    obtain ⟨segment, hm, hlow, hhigh⟩ :=
      hplaced.exists_segment (Nat.zero_le _) h.start_lt h.stop_le h.outside
    have hbound := ((hplaced.segments (Nat.zero_le _)).1 segment hm).2.1
    have hne := h.start_lt
    refine ⟨hne, segment, hm, Nat.le_antisymm hlow ?_, Nat.le_antisymm ?_ hhigh⟩
    · rcases h.left with hstart | ⟨b, hb, hstart⟩
      · omega
      · have hapart := hplaced.segment_region hm hb
        have := hplaced.region_bounds hb
        omega
    · rcases h.right with hstop | ⟨b, hb, hstop⟩
      · omega
      · have hapart := hplaced.segment_region hm hb
        have := hplaced.region_bounds hb
        omega
  · obtain ⟨start, stop⟩ := s
    rintro ⟨hne, segment, hm, rfl, rfl⟩
    refine ⟨hne, ((hplaced.segments (Nat.zero_le _)).1 segment hm).2.1, fun b hb ho => ?_,
      hplaced.segment_start hm, hplaced.segment_stop (Nat.zero_le _) hm⟩
    have hapart := hplaced.segment_region hm hb
    rw [Span.overlaps_iff] at ho
    dsimp only at ho
    omega

theorem IsScanned.eq_of_overlaps (hs : IsScanned source s) (ht : IsScanned source t)
    (ho : s.Overlaps t) : s = t := by
  -- neither of them ends within the other, as a region begins or ends there
  have hwithin {s t : Span} (hs : IsScanned source s) (ht : IsScanned source t)
      (ho : s.Overlaps t) : s.start ≤ t.start ∧ t.stop ≤ s.stop := by
    rw [Span.overlaps_iff] at ho
    have hbound := ht.stop_le
    constructor
    · rcases hs.left with hstart | ⟨b, hb, hstart⟩
      · omega
      · have hfree := ht.outside b hb
        have hregion := (placed_find source).region_bounds hb
        rw [Span.overlaps_iff] at hfree
        omega
    · rcases hs.right with hstop | ⟨b, hb, hstop⟩
      · omega
      · have hfree := ht.outside b hb
        have hregion := (placed_find source).region_bounds hb
        rw [Span.overlaps_iff] at hfree
        omega
  obtain ⟨h₁, h₂⟩ := hwithin hs ht ho
  obtain ⟨h₃, h₄⟩ := hwithin ht hs (Span.overlaps_comm.mp ho)
  obtain ⟨a, b⟩ := s
  obtain ⟨c, d⟩ := t
  rw [Span.mk.injEq]
  exact ⟨Nat.le_antisymm h₁ h₃, Nat.le_antisymm h₄ h₂⟩

theorem stops_after_segment (hp : p '%' = false)
    (hm : segment ∈ segmentsFrom source 0 (find source)) : Stops p (source.drop segment.stop) := by
  rcases (placed_find source).segment_stop (Nat.zero_le _) hm with hstop | ⟨b, hb, hstop⟩
  · rw [hstop, List.drop_length]
    exact stops_nil
  · obtain ⟨marker, ⟨gap, space, rfl, -⟩, hat, -⟩ := (find_lines source hb).1.isHead
    rw [Stops, List.head?_drop, hstop, hat.getElem?_eq]
    exact hp

theorem exists_tail_before (hm : segment ∈ segmentsFrom source 0 (find source))
    (hlt : segment.start < source.length) :
    segment.start = 0 ∨ ∃ upper, source.take segment.start = upper ++ tailMarker := by
  refine ((placed_find source).segment_start hm).imp_right ?_
  rintro ⟨b, hb, hstart⟩
  have hcloses := (find_lines source hb).2
  rw [hstart, region] at hlt ⊢
  cases htail : b.tail with
  | none =>
      rw [htail] at hcloses hlt
      generalize hstop : b.body.stop = stop at hcloses
      cases hcloses
      rw [Option.getD_none, hstop] at hlt
      exact absurd hlt (Nat.lt_irrefl _)
  | some tail =>
      rw [htail] at hcloses
      obtain ⟨hat, hstop⟩ := hcloses.isTail
      rw [← List.append_nil tailMarker] at hat
      rw [Option.getD_some, hstop]
      exact ⟨_, hat.take⟩

theorem segment_rest {front rest : Text} (hm : segment ∈ segmentsFrom source 0 (find source))
    (htext : segment.text = front ++ rest) :
    source = source.take (segment.start + front.length) ++ (rest ++ source.drop segment.stop) ∧
      (source.take (segment.start + front.length)).length = segment.start + front.length := by
  have hat := (placed_find source).segment_isAt (Nat.zero_le _) hm
  rw [htext] at hat
  have hstop : segment.stop = segment.start + front.length + rest.length := by
    rw [Segment.stop, htext, List.length_append, Nat.add_assoc]
  rw [hstop, List.length_take, Nat.min_eq_left]
  · exact ⟨hat.right.eq_append, rfl⟩
  · exact Nat.le_trans (Nat.le_add_right _ _) hat.right.le

/-- No segment begins within a stretch without a closing brace, for it follows a tail. -/
theorem segment_start_le {line : Text} (hm : segment ∈ segmentsFrom source 0 (find source))
    (hsource : source = upper ++ (line ++ body)) (hlow : segment.start ≤ upper.length + line.length)
    (hlt : segment.start < source.length) (hfree : '}' ∉ line) : segment.start ≤ upper.length := by
  by_contra hwithin
  rcases exists_tail_before hm hlt with hzero | ⟨u, hu⟩
  · omega
  · have htake : source.take segment.start = upper ++ line.take (segment.start - upper.length) := by
      rw [hsource, List.take_append, List.take_of_length_le (by omega),
        List.take_append_of_le_length (by omega)]
    have hne : line.take (segment.start - upper.length) ≠ [] := by
      apply List.ne_nil_of_length_pos
      rw [List.length_take]
      omega
    have hlast := congrArg List.getLast? (htake.symm.trans hu)
    rw [List.getLast?_append_of_ne_nil _ hne, List.getLast?_append] at hlast
    exact hfree (List.mem_of_mem_take (List.mem_of_getLast? hlast))

/-- A line that holds no tail is in the segment of each of its places that is in one. -/
theorem exists_lead (hm : segment ∈ segmentsFrom source 0 (find source))
    (hsource : source = upper ++ body) (hlow : segment.start ≤ upper.length)
    (hhigh : upper.length < segment.stop) (hfree : '}' ∉ lastLine upper) :
    ∃ pre rest, segment.text = pre ++ (lastLine upper ++ rest) ∧
      startsLine (charBefore segment.before pre) = true ∧
      segment.start + pre.length + (lastLine upper).length = upper.length ∧
      body = rest ++ source.drop segment.stop := by
  have hplaced := placed_find source
  obtain ⟨-, hend, htext⟩ := (hplaced.segments (Nat.zero_le _)).1 segment hm
  obtain ⟨t, ht, hline⟩ := exists_lastLine upper
  have hlen : upper.length = t.length + (lastLine upper).length := by
    rw [← List.length_append, ← ht]
  have happend : source = t ++ (lastLine upper ++ body) := by
    rw [← List.append_assoc, ← ht, hsource]
  have hstart : segment.start ≤ t.length :=
    segment_start_le hm happend (hlen ▸ hlow) (by omega) hfree
  have hmiddle : source.between t.length upper.length = lastLine upper := by
    rw [hlen, happend]
    exact between_middle
  have hbody : source.drop upper.length = body := by rw [hsource, List.drop_left]
  refine ⟨source.between segment.start t.length, source.between upper.length segment.stop, ?_, ?_,
    ?_, ?_⟩
  · have hupper : t.length ≤ upper.length := by omega
    rw [htext, between_eq_append hstart (by omega : t.length ≤ segment.stop),
      between_eq_append hupper (Nat.le_of_lt hhigh), hmiddle]
  · have htake : source.take t.length = t := by rw [happend, List.take_left]
    rw [charBefore, hplaced.segment_before (Nat.zero_le _) hm, ← List.getLast?_append,
      take_append_between hstart, htake]
    rcases hline with rfl | ⟨u, rfl⟩
    · rfl
    · rw [List.getLast?_concat]
      rfl
  · rw [length_between (by omega)]
    omega
  · conv => lhs; rw [← hbody, ← List.take_append_drop (segment.stop - upper.length) (source.drop _)]
    rw [List.drop_drop, Nat.add_sub_cancel' (Nat.le_of_lt hhigh), between]

/-- What meets no block is in a segment with all that stands before it on its line. -/
theorem exists_segment_line {rest : Text} (hsource : source = upper ++ (body ++ rest))
    (hne : 0 < body.length) (hfree : '}' ∉ lastLine upper)
    (houtside : ∀ b ∈ find source,
      ¬ Span.Overlaps ⟨upper.length, upper.length + body.length⟩ b.region) :
    ∃ segment ∈ segmentsFrom source 0 (find source), ∃ pre after,
      segment.text = pre ++ (lastLine upper ++ (body ++ after)) ∧
      startsLine (charBefore segment.before pre) = true ∧
      segment.start + pre.length + (lastLine upper).length = upper.length ∧
      rest = after ++ source.drop segment.stop := by
  have hlen : upper.length + body.length ≤ source.length := by
    rw [hsource, List.length_append, List.length_append]
    omega
  obtain ⟨segment, hm, hlow, hhigh⟩ := (placed_find source).exists_segment (Nat.zero_le _)
    (Nat.lt_add_of_pos_right hne) hlen houtside
  dsimp only at hlow hhigh
  obtain ⟨pre, text, htext, hl, hstart, htail⟩ :=
    exists_lead hm hsource hlow (by omega) hfree
  have hsize : body.length ≤ text.length := by
    rw [Segment.stop, htext, List.length_append, List.length_append] at hhigh
    omega
  obtain ⟨after, rfl⟩ : body <+: text :=
    List.prefix_of_prefix_length_le ⟨rest, rfl⟩ ⟨_, htail.symm⟩ hsize
  rw [List.append_assoc, List.append_cancel_left_eq] at htail
  exact ⟨segment, hm, pre, after, htext, hl, hstart, htail⟩

end PioSyntax.ForeignBlock

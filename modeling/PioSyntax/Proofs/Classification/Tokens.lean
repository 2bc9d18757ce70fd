import PioSyntax.Proofs.ForeignBlock.Segments
import PioSyntax.Proofs.Token.Shift

namespace PioSyntax

open Text

def Token.IsPart (source : Text) (t : Token) : Prop :=
  t.span.start < t.span.stop ∧ t.span.stop ≤ source.length ∧ t.text = t.span.slice source

namespace Classification

variable {rules : List Rule} {r : Rule} {source : Text} {t u : Token} {n : Nat}
variable {segments : List Segment}

def blockTokens (source : Text) : List Token :=
  (ForeignBlock.find source).flatMap (·.tokens source)

def proposals (source : Text) (r : Rule) : List Token :=
  (ForeignBlock.segments source (ForeignBlock.find source)).flatMap r.candidates

theorem proposals_eq : proposals source r =
    (ForeignBlock.segmentsFrom source 0 (ForeignBlock.find source)).flatMap r.candidates := by
  rw [proposals, ForeignBlock.segments]
  induction ForeignBlock.segmentsFrom source 0 (ForeignBlock.find source) with
  | nil => rfl
  | cons segment segments ih =>
      obtain ⟨start, before, text⟩ := segment
      rw [List.filter_cons, List.flatMap_cons, ← ih]
      split
      · rfl
      · next h =>
          have htext : text = [] := by simpa using h
          rw [htext, Rule.candidates_nil, List.nil_append]

theorem tokens_ofRules (rules : List Rule) (source : Text) :
    (ofRules rules source).tokens =
      Token.claimAll (rules.flatMap (proposals source)) (blockTokens source) := rfl

theorem candidates_before (h : ∀ s ∈ segments, s.stop ≤ n) (ht : t ∈ segments.flatMap r.candidates) :
    t.Before n := by
  obtain ⟨s, hs, ht⟩ := List.mem_flatMap.mp ht
  obtain ⟨-, -, hne, hstop, -⟩ := Rule.mem_candidates ht
  exact ⟨hne, Nat.le_trans hstop (h s hs)⟩

theorem candidates_after (h : ∀ s ∈ segments, n ≤ s.start) (ht : t ∈ segments.flatMap r.candidates) :
    t.After n := by
  obtain ⟨s, hs, ht⟩ := List.mem_flatMap.mp ht
  obtain ⟨-, hstart, hne, -⟩ := Rule.mem_candidates ht
  exact ⟨Nat.le_trans (h s hs) hstart, hne⟩

theorem mem_segments {s : Segment}
    (hs : s ∈ ForeignBlock.segments source (ForeignBlock.find source)) :
    s ∈ ForeignBlock.segmentsFrom source 0 (ForeignBlock.find source) ∧ s.IsPart source := by
  have hm := (List.mem_filter.mp hs).1
  exact ⟨hm, (((ForeignBlock.placed_find source).segments (Nat.zero_le _)).1 s hm).2⟩

theorem mem_proposals (h : t ∈ proposals source r) :
    t.category = r.category ∧ t.IsPart source ∧
      ∃ s ∈ ForeignBlock.segmentsFrom source 0 (ForeignBlock.find source),
        s.start ≤ t.span.start ∧ t.span.stop ≤ s.stop := by
  obtain ⟨s, hs, ht⟩ := List.mem_flatMap.mp h
  obtain ⟨hs, hstop, htext⟩ := mem_segments hs
  obtain ⟨hc, hstart, hne, hend, ht⟩ := Rule.mem_candidates ht
  refine ⟨hc, ⟨hne, Nat.le_trans hend hstop, ?_⟩, s, hs, hstart, hend⟩
  have hend : t.span.stop ≤ s.stop := hend
  rw [ht, htext, between_between (by omega), Nat.add_sub_cancel' hstart,
    Nat.add_sub_cancel' (by omega), Span.slice]

theorem proposals_inOrder (source : Text) (r : Rule) : Token.InOrder (proposals source r) := by
  refine ⟨fun t ht => (mem_proposals ht).2.1.1, ?_⟩
  have hsegments := ((ForeignBlock.placed_find source).segments (Nat.zero_le _)).2
  refine List.pairwise_flatMap.mpr ⟨fun s _ => (Rule.candidates_inOrder r s).2, ?_⟩
  apply (hsegments.sublist List.filter_sublist).imp
  intro s s' hss' t ht u hu
  have h := (Rule.mem_candidates ht).2.2.2.1
  have h' := (Rule.mem_candidates hu).2.1
  exact Nat.le_trans h (Nat.le_trans hss' h')

theorem blockTokens_inOrder (source : Text) : Token.InOrder (blockTokens source) :=
  (ForeignBlock.placed_find source).tokens_inOrder

theorem mem_blockTokens (h : t ∈ blockTokens source) :
    t.IsPart source ∧ (t.category = .foreignBlockDelimiter ∨ t.category = .foreignBlock) := by
  obtain ⟨b, -, ht⟩ := List.mem_flatMap.mp h
  obtain ⟨htext, hc⟩ := ForeignBlock.mem_tokens ht
  exact ⟨⟨(blockTokens_inOrder source).1 t h,
    ((ForeignBlock.placed_find source).token_bounds h).2, htext⟩, hc⟩

theorem mem_tokens (h : t ∈ (ofRules rules source).tokens) :
    t ∈ blockTokens source ∨ ∃ r ∈ rules, t ∈ proposals source r := by
  rw [tokens_ofRules] at h
  rcases Token.mem_or_mem_of_mem_claimAll h with h | h
  · exact .inl h
  · exact .inr (List.mem_flatMap.mp h)

/-- Rules see nothing of the foreign blocks. -/
theorem proposal_apart (ht : t ∈ proposals source r) (hu : u ∈ blockTokens source) :
    ¬ t.span.Overlaps u.span := by
  obtain ⟨-, -, s, hs, hstart, hstop⟩ := mem_proposals ht
  have := (ForeignBlock.placed_find source).segment_apart hs hu
  rw [Span.overlaps_iff]
  omega

theorem proposal_outside {b : ForeignBlock} (ht : t ∈ proposals source r)
    (hb : b ∈ ForeignBlock.find source) : ¬ t.span.Overlaps b.region := by
  obtain ⟨-, -, s, hs, hstart, hstop⟩ := mem_proposals ht
  have := (ForeignBlock.placed_find source).segment_region hs hb
  rw [Span.overlaps_iff]
  omega

theorem tokens_inOrder (rules : List Rule) (source : Text) :
    Token.InOrder (ofRules rules source).tokens := by
  rw [tokens_ofRules]
  apply (blockTokens_inOrder source).claimAll
  intro t ht
  obtain ⟨r, -, ht⟩ := List.mem_flatMap.mp ht
  exact (mem_proposals ht).2.1.1

theorem eq_ofRules {c : Classification} (h : ofRules? rules source = .ok c) :
    c = ofRules rules source := by
  unfold ofRules? at h
  split at h
  · cases h
  · exact (Except.ok.inj h).symm

theorem ofRules?_of_hasGroup (h : ∀ r ∈ rules, r.hasGroup = true)
    (source : Text) : ofRules? rules source = .ok (ofRules rules source) := by
  have hl : ∀ segments, lacksGroup rules segments = false := by
    intro segments
    simpa [lacksGroup] using fun r hr hn => absurd (h r hr) (by simp [hn])
  rw [ofRules?, hl]
  rfl

end Classification

end PioSyntax

import PioSyntax.Proofs.Classification.Comments
import PioSyntax.Proofs.Classification.LetterCase
import PioSyntax.Proofs.Classification.Tiling
import PioSyntax.Proofs.Position

namespace PioSyntax.Classification

open Text Pattern ForeignBlock

/-- A point and a whole word that is the name of a directive, first on its line. -/
def IsDirective (source : Text) (s : Span) : Prop :=
  ∃ upper name rest, source = upper ++ ('.' :: name ++ rest) ∧
    s = ⟨upper.length, upper.length + ('.' :: name).length⟩ ∧ IsBlanks (lastLine upper) ∧
    (∀ c ∈ name, isWord c = true) ∧ Stops isWord rest ∧
    ∃ n ∈ Vocabulary.directives, sameLetters name n = true

/-- A name before a single colon, first on its line or after the word `public`. -/
def IsLabel (source : Text) (s : Span) : Prop :=
  ∃ upper name rest, source = upper ++ (name ++ ':' :: rest) ∧
    s = ⟨upper.length, upper.length + name.length⟩ ∧
    (IsBlanks (lastLine upper) ∨ IsPublic (lastLine upper)) ∧ IsName name ∧ Stops (· == ':') rest

structure IsFree (source : Text) (s : Span) : Prop where
  outside : ∀ b ∈ (classify source).blocks, ¬ s.Overlaps b.region
  uncommented : ∀ t ∈ (classify source).tokens, t.category = .comment →
    ¬ (t.span.start ≤ s.start ∧ s.start < t.span.stop)

def lineOf (source : Text) (t : Token) : Nat :=
  ((LineIndex.ofText source).position t.span.start).line

/-- What directives and labels have in common: a lead without points and colons, one of these as a
mark of their own, and else word characters. -/
structure IsStatement (source : Text) (s : Span) : Prop where
  start_lt : s.start < s.stop
  lead : IsBlanks (lastLine (source.take s.start)) ∨ IsPublic (lastLine (source.take s.start))
  first : source[s.start]? ≠ some ':'
  word : ∀ i c, s.start < i → i < s.stop → source[i]? = some c → isWord c = true
  mark : source[s.start]? = some '.' ∨ source[s.stop]? = some ':'

def directiveRule : Rule := ⟨.directive, .directive Vocabulary.directives, 1⟩

variable {source : Text} {s s' : Span} {t u : Token} {c : Char} {i : Nat}

theorem IsDirective.isStatement (h : IsDirective source s) : IsStatement source s := by
  obtain ⟨upper, name, rest, hsource, rfl, hlead, hw, -, -⟩ := h
  have hat : IsAt source upper.length ('.' :: name) := ⟨upper, rest, hsource, rfl⟩
  refine ⟨Nat.lt_add_of_pos_right (Nat.succ_pos _), .inl ?_, ?_, fun i c hlow hhigh hc => ?_,
    .inl hat.getElem?_eq⟩
  · rwa [hsource, List.take_left]
  · rw [hat.getElem?_eq]
    decide
  · refine hw c (hat.tail.mem hlow ?_ hc)
    dsimp only at hhigh
    rw [List.length_cons] at hhigh
    omega

theorem IsLabel.isWord (h : IsLabel source s) (hlow : s.start ≤ i) (hhigh : i < s.stop)
    (hc : source[i]? = some c) : isWord c = true := by
  obtain ⟨upper, name, rest, hsource, rfl, -, hn, -⟩ := h
  have hat : IsAt source upper.length name := ⟨upper, ':' :: rest, hsource, rfl⟩
  exact hn.isWord c (hat.mem hlow hhigh hc)

theorem IsLabel.isStatement (h : IsLabel source s) : IsStatement source s := by
  have hword := fun i c hlow hhigh => h.isWord (i := i) (c := c) (Nat.le_of_lt hlow) hhigh
  obtain ⟨upper, name, rest, hsource, rfl, hlead, ⟨d, ds, rfl, hd, -⟩, -⟩ := h
  have hat : IsAt source upper.length (d :: ds ++ [':']) := ⟨upper, rest, by simp [hsource], rfl⟩
  refine ⟨Nat.lt_add_of_pos_right (Nat.succ_pos _), ?_, ?_, hword, .inr hat.right.getElem?_eq⟩
  · rwa [hsource, List.take_left]
  · rw [hat.left.getElem?_eq]
    rintro ⟨⟩
    exact absurd hd (by decide)

/-- A point or a colon before a statement is on an earlier line. -/
theorem IsStatement.newline_mem (h : IsStatement source s) (hi : i < s.start)
    (hc : source[i]? = some c) (hmark : c = '.' ∨ c = ':') : '\n' ∈ source.between i s.start := by
  by_contra hn
  have hline : lastLine (source.take s.start) =
      lastLine (source.take i) ++ source.between i s.start := by
    rw [← take_append_between (Nat.le_of_lt hi), lastLine_append hn]
  have hm : c ∈ lastLine (source.take s.start) := by
    rw [hline]
    exact List.mem_append_right _ (mem_between_iff.mpr ⟨i, Nat.le_refl _, hi, hc⟩)
  have hfree : c ∉ lastLine (source.take s.start) := by
    rcases hmark with rfl | rfl
    · exact not_mem_lead h.lead rfl (by decide)
    · exact not_mem_lead h.lead rfl (by decide)
  exact hfree hm

/-- Between two statements that do not overlap, a line ends. -/
theorem IsStatement.newline_mem_between (h : IsStatement source s) (h' : IsStatement source s')
    (hs : s.stop ≤ s'.start) : '\n' ∈ source.between s.start s'.start := by
  have hlt := Nat.lt_of_lt_of_le h.start_lt hs
  rcases h.mark with hc | hc
  · exact h'.newline_mem hlt hc (.inl rfl)
  · have hne : s.stop ≠ s'.start := by
      intro he
      rw [he] at hc
      exact h'.first hc
    obtain ⟨i, hlow, hhigh, hi⟩ :=
      mem_between_iff.mp (h'.newline_mem (Nat.lt_of_le_of_ne hs hne) hc (.inr rfl))
    exact mem_between_iff.mpr ⟨i, Nat.le_trans (Nat.le_of_lt h.start_lt) hlow, hhigh, hi⟩

theorem lineOf_eq (source : Text) (t : Token) :
    lineOf source t = (source.take t.span.start).count '\n' + 1 := by
  rw [lineOf, LineIndex.position_eq]

theorem lineOf_ne (hle : t.span.start ≤ u.span.start)
    (hn : '\n' ∈ source.between t.span.start u.span.start) : lineOf source t ≠ lineOf source u := by
  have hpos := List.count_pos_iff.mpr hn
  rw [lineOf_eq, lineOf_eq, ← take_append_between hle, List.count_append]
  omega

/-- The comments that overlap a statement are those that it begins in. -/
theorem IsStatement.overlaps_comment_iff (h : IsStatement source s)
    (hu : u ∈ proposals source commentRule) :
    s.Overlaps u.span ↔ u.span.start ≤ s.start ∧ s.start < u.span.stop := by
  obtain ⟨_, -, -, -, hcomment⟩ := exists_isComment hu
  obtain ⟨c, hc, hword⟩ := hcomment.first
  have hlt := h.start_lt
  have hne := (mem_proposals hu).2.1.1
  rw [Span.overlaps_iff]
  constructor
  · rintro ⟨hhigh, hlow, -⟩
    refine ⟨Nat.le_of_not_lt fun hin => ?_, hhigh⟩
    exact absurd (h.word _ c hin hlow hc) (by simp [hword])
  · rintro ⟨hlow, hhigh⟩
    omega

theorem IsDirective.not_overlaps_label (h : IsDirective source s) (h' : IsLabel source s') :
    ¬ s.Overlaps s' := by
  have hs' := h'.isStatement
  obtain ⟨upper, name, rest, hsource, rfl, -, hw, -, -⟩ := h
  have hat : IsAt source upper.length ('.' :: name) := ⟨upper, rest, hsource, rfl⟩
  have hnewline : '\n' ∉ '.' :: name := by
    rw [List.mem_cons, not_or]
    exact ⟨by decide, not_mem_of_forall hw rfl⟩
  rintro ⟨i, ⟨hlow, hhigh⟩, hlow', hhigh'⟩
  rcases Nat.lt_or_ge upper.length s'.start with hlt | hge
  · -- a line would have to end within the directive
    obtain ⟨j, hj, hj', hc⟩ := mem_between_iff.mp (hs'.newline_mem hlt hat.getElem?_eq (.inl rfl))
    exact hnewline (hat.mem hj (by dsimp only at hhigh; omega) hc)
  · have hpoint := h'.isWord hge (by dsimp only at hlow; omega) hat.getElem?_eq
    exact absurd hpoint (by decide)

/-- What a segment shows of a line is all that stands there in the source. -/
theorem exists_upper {segment : Segment} {pre lead body after : Text}
    (hs : segment ∈ segmentsFrom source 0 (find source))
    (htext : segment.text = pre ++ (lead ++ (body ++ after)))
    (hl : startsLine (charBefore segment.before pre) = true) (hlead : '\n' ∉ lead) :
    ∃ upper, source = upper ++ (body ++ (after ++ source.drop segment.stop)) ∧
      lastLine upper = lead ∧ upper.length = segment.start + pre.length + lead.length := by
  have hline := lastLine_lead hs htext hl hlead
  rw [← List.append_assoc] at htext
  obtain ⟨hsource, hlen⟩ := segment_rest hs htext
  rw [List.length_append, ← Nat.add_assoc] at hsource hlen
  rw [List.append_assoc body] at hsource
  exact ⟨_, hsource, hline, hlen⟩

theorem exists_proposal_directive : (∃ t ∈ proposals source directiveRule, t.span = s) ↔
    IsDirective source s ∧ ∀ b ∈ find source, ¬ s.Overlaps b.region := by
  constructor
  · rintro ⟨t, ht, rfl⟩
    refine ⟨?_, fun b hb => proposal_outside ht hb⟩
    rw [proposals_eq, List.mem_flatMap] at ht
    obtain ⟨segment, hs, ht⟩ := ht
    obtain ⟨pre, indent, name, after, htext, hl, hi, hw, hstops, hn, rfl⟩ :=
      (Rule.mem_candidates_directive rfl rfl).mp ht
    obtain ⟨upper, hsource, hline, hlen⟩ :=
      exists_upper hs htext hl (newline_not_mem_lead (.inl hi))
    refine ⟨upper, name, _, hsource, ?_, hline.symm ▸ hi, hw,
      (stops_append (stops_after_segment rfl hs)).mpr hstops, hn⟩
    rw [hlen, ← Nat.add_assoc]
  · rintro ⟨⟨upper, name, rest, hsource, rfl, hlead, hw, hstops, hn⟩, houtside⟩
    obtain ⟨segment, hs, pre, after, htext, hl, hlen, rfl⟩ :=
      exists_segment_line hsource (Nat.succ_pos _) (not_mem_lead (.inl hlead) rfl (by decide)) houtside
    rw [stops_append (stops_after_segment rfl hs)] at hstops
    rw [← hlen, Nat.add_assoc _ (lastLine upper).length]
    refine ⟨_, proposals_eq ▸ List.mem_flatMap.mpr ⟨segment, hs,
      (Rule.mem_candidates_directive rfl rfl).mpr
        ⟨pre, _, name, after, htext, hl, hlead, hw, hstops, hn, rfl⟩⟩, rfl⟩

theorem exists_proposal_label : (∃ t ∈ proposals source labelRule, t.span = s) ↔
    IsLabel source s ∧ ∀ b ∈ find source, ¬ s.Overlaps b.region := by
  constructor
  · rintro ⟨t, ht, rfl⟩
    refine ⟨?_, fun b hb => proposal_outside ht hb⟩
    obtain ⟨segment, hs, pre, lead, name, after, htext, hl, hlead, hn, hstops, rfl⟩ :=
      (mem_proposals_label rfl rfl).mp ht
    rw [List.append_cons] at htext
    obtain ⟨upper, hsource, hline, hlen⟩ :=
      exists_upper hs htext hl (newline_not_mem_lead hlead)
    rw [← List.append_cons] at hsource
    refine ⟨upper, name, _, hsource, ?_, hline.symm ▸ hlead, hn,
      (stops_append (stops_after_segment rfl hs)).mpr hstops⟩
    rw [hlen, ← Nat.add_assoc]
  · rintro ⟨⟨upper, name, rest, hsource, rfl, hlead, hn, hstops⟩, houtside⟩
    obtain ⟨segment, hs, pre, after, htext, hl, hlen, hafter⟩ :=
      exists_segment_line hsource hn.length_pos (not_mem_lead hlead rfl (by decide)) houtside
    cases after with
    | nil =>
        -- the segment would end at the colon, where a block begins with another character
        have hcolon := stops_after_segment (p := (· == ':')) rfl hs
        rw [← List.nil_append (source.drop _), ← hafter] at hcolon
        simp at hcolon
    | cons c after =>
        rw [List.cons_append, List.cons.injEq] at hafter
        obtain ⟨rfl, rfl⟩ := hafter
        rw [stops_append (stops_after_segment rfl hs)] at hstops
        rw [← hlen, Nat.add_assoc _ (lastLine upper).length]
        exact ⟨_, (mem_proposals_label rfl rfl).mpr
          ⟨segment, hs, pre, _, name, after, htext, hl, hlead, hn, hstops, rfl⟩, rfl⟩

theorem mem_directives : t ∈ (classify source).tokens ∧ t.category = .directive ↔
    t ∈ proposals source directiveRule ∧
      ∀ u ∈ proposals source commentRule, ¬ t.span.Overlaps u.span := by
  have hi : 1 < defaultRules.length := by decide
  refine (mem_produced_default hi).symm.trans ((mem_produced hi).trans (and_congr_right fun _ => ?_))
  constructor
  · intro h u hu
    exact h 0 Nat.one_pos u (mem_produced_comment.mpr hu)
  · intro h j hj u hu
    obtain rfl : j = 0 := by omega
    exact h u (mem_produced_comment.mp hu)

/-- Labels have only comments to fear, for no directive overlaps one. -/
theorem mem_labels : t ∈ (classify source).tokens ∧ t.category = .label ↔
    t ∈ proposals source labelRule ∧
      ∀ u ∈ proposals source commentRule, ¬ t.span.Overlaps u.span := by
  have hi : 2 < defaultRules.length := by decide
  refine (mem_produced_default hi).symm.trans ((mem_produced hi).trans (and_congr_right fun ht => ?_))
  constructor
  · intro h u hu
    exact h 0 Nat.two_pos u (mem_produced_comment.mpr hu)
  · intro h j hj u hu
    obtain rfl | rfl : j = 0 ∨ j = 1 := by omega
    · exact h u (mem_produced_comment.mp hu)
    · have hlabel := (exists_proposal_label.mp ⟨t, ht, rfl⟩).1
      have hm : u ∈ proposals source directiveRule :=
        ((mem_produced (by decide : 1 < defaultRules.length)).mp hu).1
      have hdirective := (exists_proposal_directive.mp ⟨u, hm, rfl⟩).1
      rw [Span.overlaps_comm]
      exact hdirective.not_overlaps_label hlabel

theorem IsStatement.isFree_iff (h : IsStatement source s) : IsFree source s ↔
    (∀ b ∈ find source, ¬ s.Overlaps b.region) ∧
      ∀ u ∈ proposals source commentRule, ¬ s.Overlaps u.span := by
  constructor
  · rintro ⟨houtside, hcomments⟩
    refine ⟨houtside, fun u hu => ?_⟩
    obtain ⟨hm, hc⟩ := mem_comments.mpr hu
    rw [h.overlaps_comment_iff hu]
    exact hcomments u hm hc
  · rintro ⟨houtside, hcomments⟩
    refine ⟨houtside, fun u hm hc => ?_⟩
    have hu := mem_comments.mp ⟨hm, hc⟩
    rw [← h.overlaps_comment_iff hu]
    exact hcomments u hu

/-- A rule that has only comments to fear keeps what is free. -/
theorem exists_token_iff {category : Category} {r : Rule} {P : Prop}
    (hr : ∀ t, t ∈ (classify source).tokens ∧ t.category = category ↔ t ∈ proposals source r ∧
      ∀ u ∈ proposals source commentRule, ¬ t.span.Overlaps u.span)
    (hp : (∃ t ∈ proposals source r, t.span = s) ↔ P ∧ ∀ b ∈ find source, ¬ s.Overlaps b.region)
    (hs : P → IsStatement source s) :
    (∃ t ∈ (classify source).tokens, t.category = category ∧ t.span = s) ↔ P ∧ IsFree source s := by
  constructor
  · rintro ⟨t, ht, hc, rfl⟩
    obtain ⟨hm, hfree⟩ := (hr t).mp ⟨ht, hc⟩
    obtain ⟨h, houtside⟩ := hp.mp ⟨t, hm, rfl⟩
    exact ⟨h, (hs h).isFree_iff.mpr ⟨houtside, hfree⟩⟩
  · rintro ⟨h, hfree⟩
    obtain ⟨houtside, hcomments⟩ := (hs h).isFree_iff.mp hfree
    obtain ⟨t, hm, rfl⟩ := hp.mpr ⟨h, houtside⟩
    obtain ⟨ht, hc⟩ := (hr t).mpr ⟨hm, hcomments⟩
    exact ⟨t, ht, hc, rfl⟩

theorem exists_directive_iff :
    (∃ t ∈ (classify source).tokens, t.category = .directive ∧ t.span = s) ↔
      IsDirective source s ∧ IsFree source s :=
  exists_token_iff (fun _ => mem_directives) exists_proposal_directive IsDirective.isStatement

theorem exists_label_iff :
    (∃ t ∈ (classify source).tokens, t.category = .label ∧ t.span = s) ↔
      IsLabel source s ∧ IsFree source s :=
  exists_token_iff (fun _ => mem_labels) exists_proposal_label IsLabel.isStatement

theorem isStatement_of_mem (ht : t ∈ (classify source).tokens)
    (hc : t.category = .directive ∨ t.category = .label) : IsStatement source t.span := by
  rcases hc with hc | hc
  · exact (exists_directive_iff.mp ⟨t, ht, hc, rfl⟩).1.isStatement
  · exact (exists_label_iff.mp ⟨t, ht, hc, rfl⟩).1.isStatement

/-- Directives and labels are exact: outside of foreign blocks and comments, they are where their line
says, and no line has two of them. -/
theorem statements_exact (source : Text) :
    (∀ s, (∃ t ∈ (classify source).tokens, t.category = .directive ∧ t.span = s) ↔
      IsDirective source s ∧ IsFree source s) ∧
    (∀ s, (∃ t ∈ (classify source).tokens, t.category = .label ∧ t.span = s) ↔
      IsLabel source s ∧ IsFree source s) ∧
    ∀ t ∈ (classify source).tokens, ∀ u ∈ (classify source).tokens,
      (t.category = .directive ∨ t.category = .label) →
      (u.category = .directive ∨ u.category = .label) → lineOf source t = lineOf source u → t = u := by
  refine ⟨fun s => exists_directive_iff, fun s => exists_label_iff, fun t ht u hu hc hc' hline => ?_⟩
  have hs := isStatement_of_mem ht hc
  have hs' := isStatement_of_mem hu hc'
  by_cases ho : t.span.Overlaps u.span
  · exact (tokens_inOrder defaultRules source).eq_of_overlaps ht hu ho
  · have hlt := hs.start_lt
    have hlt' := hs'.start_lt
    rw [Span.overlaps_iff] at ho
    rcases Nat.lt_or_ge u.span.start t.span.stop with hbefore | hafter
    · have hle : u.span.stop ≤ t.span.start := by omega
      have hnewline := hs'.newline_mem_between hs hle
      exact absurd hline.symm (lineOf_ne (by omega) hnewline)
    · have hnewline := hs.newline_mem_between hs' hafter
      exact absurd hline (lineOf_ne (by omega) hnewline)

/-- The longer one of two names is taken, and a label is published. -/
theorem statements_exact_public :
    (IsDirective ".wrap_target\npublic a:" ⟨0, 12⟩ ∧ IsFree ".wrap_target\npublic a:" ⟨0, 12⟩) ∧
      IsLabel ".wrap_target\npublic a:" ⟨20, 21⟩ ∧
      lineOf ".wrap_target\npublic a:" ⟨.directive, ⟨0, 12⟩, ".wrap_target"⟩ ≠
        lineOf ".wrap_target\npublic a:" ⟨.label, ⟨20, 21⟩, "a"⟩ := by
  obtain ⟨hdirectives, hlabels, hlines⟩ := statements_exact ".wrap_target\npublic a:"
  have hd : ⟨.directive, ⟨0, 12⟩, ".wrap_target"⟩ ∈ (classify ".wrap_target\npublic a:").tokens := by
    decide
  have hl : ⟨.label, ⟨20, 21⟩, "a"⟩ ∈ (classify ".wrap_target\npublic a:").tokens := by decide
  refine ⟨(hdirectives ⟨0, 12⟩).mp ⟨_, hd, rfl, rfl⟩, ((hlabels ⟨20, 21⟩).mp ⟨_, hl, rfl, rfl⟩).1,
    fun hline => ?_⟩
  have he := hlines _ hd _ hl (.inl rfl) (.inr rfl) hline
  cases he

end PioSyntax.Classification

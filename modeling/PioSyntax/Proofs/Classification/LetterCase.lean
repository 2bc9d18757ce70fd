import PioSyntax.Proofs.Classification.LineBreak
import PioSyntax.Proofs.Classification.Priority
import PioSyntax.Proofs.Classification.Spelling
import PioSyntax.Proofs.ForeignBlock.LetterCase
import PioSyntax.Proofs.Rule.LetterCase

namespace PioSyntax

open Text Pattern

def Text.capitals (text : Text) : Text := text.map Char.toUpper

def Token.capitals (t : Token) : Token := { t with text := t.text.capitals }

def ForeignBlock.capitals (b : ForeignBlock) : ForeignBlock :=
  { b with language := b.language.capitals }

/-- The word `public` stands before the token on its line. -/
def Token.IsPublished (source : Text) (t : Token) : Prop :=
  IsPublic (lastLine (source.take t.span.start))

variable {source pre lead rest : Text} {r : Rule} {s : Segment} {t u : Token}

namespace Spelling

theorem token_capitals (source : Text) : capitals.token source = Token.capitals := by
  funext t
  rw [token, Spelling.span, move_capitals, move_capitals, text_capitals]
  rfl

theorem block_capitals (source : Text) :
    capitals.block source Text.capitals = ForeignBlock.capitals := by
  have hspan : capitals.span source = id := by
    funext s
    rw [span, move_capitals, move_capitals]
    rfl
  funext b
  rw [block, hspan, Option.map_id]
  rfl

end Spelling

namespace Classification

open ForeignBlock

theorem lastLine_lead (hs : s ∈ segmentsFrom source 0 (find source))
    (htext : s.text = pre ++ (lead ++ rest)) (hl : startsLine (charBefore s.before pre) = true)
    (hlead : '\n' ∉ lead) :
    lastLine (source.take (s.start + pre.length + lead.length)) = lead := by
  have hat := (placed_find source).segment_isAt (Nat.zero_le _) hs
  rw [htext] at hat
  have hline : startsLine (source.take s.start ++ pre).getLast? = true := by
    rw [List.getLast?_append, ← (placed_find source).segment_before (Nat.zero_le _) hs]
    exact hl
  have hnil : lastLine (source.take s.start ++ pre) = [] := by
    apply lastLine_eq_nil
    cases h : (source.take s.start ++ pre).getLast? with
    | none => exact .inl (List.getLast?_eq_none_iff.mp h)
    | some c =>
        rw [h] at hline
        exact .inr (by simpa [startsLine] using hline)
  rw [hat.right.take, hat.take, lastLine_append hlead, hnil, List.nil_append]

theorem mem_proposals_label (hp : r.pattern = .label) (hg : r.group = 1) :
    t ∈ proposals source r ↔ ∃ s ∈ segmentsFrom source 0 (find source), ∃ pre lead name rest,
      s.text = pre ++ (lead ++ (name ++ ':' :: rest)) ∧
        startsLine (charBefore s.before pre) = true ∧ (IsBlanks lead ∨ IsPublic lead) ∧
        IsName name ∧ Stops (· == ':') rest ∧
        t = ⟨r.category, ⟨s.start + pre.length + lead.length,
          s.start + pre.length + (lead.length + name.length)⟩, name⟩ := by
  rw [proposals_eq, List.mem_flatMap]
  exact exists_congr fun s => and_congr_right fun _ => Rule.mem_candidates_label hp hg

theorem mem_proposals_capitals (hp : r.pattern = .label) (hg : r.group = 1) :
    u ∈ proposals (Spelling.capitals.text source) r ↔
      ∃ t ∈ proposals source r, ¬ t.IsPublished source ∧ t.capitals = u := by
  have hsegments := Spelling.segmentsFrom_text Spelling.capitals (List.map Char.toUpper)
    (placed_find source) (Nat.zero_le _)
  rw [Spelling.move_capitals] at hsegments
  rw [proposals_eq, keepsBlocks_capitals.find, hsegments, List.flatMap_map, List.mem_flatMap]
  simp only [Spelling.segment, Spelling.move_capitals, Spelling.before_capitals,
    Spelling.text_capitals, Rule.mem_candidates_capitals hp hg, mem_proposals_label hp hg]
  constructor
  · rintro ⟨s, hs, pre, lead, name, rest, htext, hl, hlead, hn, hr, rfl⟩
    refine ⟨_, ⟨s, hs, pre, lead, name, rest, htext, hl, .inl hlead, hn, hr, rfl⟩, ?_, rfl⟩
    rw [Token.IsPublished, lastLine_lead hs htext hl (newline_not_mem_lead (.inl hlead))]
    exact not_isPublic_of_isBlanks hlead
  · rintro ⟨t, ⟨s, hs, pre, lead, name, rest, htext, hl, hlead, hn, hr, rfl⟩, hfree, rfl⟩
    rw [Token.IsPublished, lastLine_lead hs htext hl (newline_not_mem_lead hlead)] at hfree
    exact ⟨s, hs, pre, lead, name, rest, htext, hl, hlead.resolve_right hfree, hn, hr, rfl⟩

def labelRule : Rule := ⟨.label, .label, 1⟩

theorem tokens_classify (source : Text) : (classify source).tokens =
    Token.claimAll ((defaultRules.drop 3).flatMap (proposals source))
      (Token.claimAll (proposals source labelRule) (ofRules (defaultRules.take 2) source).tokens) := by
  have hrules : defaultRules = defaultRules.take 2 ++ labelRule :: defaultRules.drop 3 := rfl
  conv => lhs; rw [classify, hrules, tokens_append, List.flatMap_cons, Token.claimAll_append]

theorem keeps_capitals_default : ∀ r ∈ defaultRules, r.pattern ≠ .label →
    Spelling.capitals.Keeps source r.pattern := fun r hr hp =>
  keeps_capitals hp (defaultRules_separates r hr)

theorem earlier_tokens_capitals :
    (ofRules (defaultRules.take 2) (Spelling.capitals.text source)).tokens =
      (ofRules (defaultRules.take 2) source).tokens.map (Spelling.capitals.token source) := by
  have hlabel : ∀ r ∈ defaultRules.take 2, r.pattern ≠ .label := by decide
  exact keepsBlocks_capitals.tokens_ofRules fun r hr =>
    keeps_capitals_default r (List.mem_of_mem_take hr) (hlabel r hr)

theorem later_proposals_capitals :
    (defaultRules.drop 3).flatMap (proposals (Spelling.capitals.text source)) =
      ((defaultRules.drop 3).flatMap (proposals source)).map (Spelling.capitals.token source) := by
  have hlabel : ∀ r ∈ defaultRules.drop 3, r.pattern ≠ .label := by decide
  rw [List.map_flatMap]
  exact List.flatMap_congr fun r hr => keepsBlocks_capitals.proposals
    (keeps_capitals_default r (List.mem_of_mem_drop hr) (hlabel r hr))

/-- If no label after `public` is kept, it does not matter that these are lost. -/
theorem labels_capitals
    (h : ∀ t ∈ (classify source).tokens, t.category = .label → ¬ t.IsPublished source) :
    Token.claimAll (proposals (Spelling.capitals.text source) labelRule)
        ((ofRules (defaultRules.take 2) source).tokens.map (Spelling.capitals.token source)) =
      (Token.claimAll (proposals source labelRule)
        (ofRules (defaultRules.take 2) source).tokens).map (Spelling.capitals.token source) := by
  have hkept := tokens_inOrder (defaultRules.take 2) source
  have hkept' : Token.InOrder
      ((ofRules (defaultRules.take 2) source).tokens.map (Spelling.capitals.token source)) :=
    Spelling.inOrder_token hkept
  have hproposals := proposals_inOrder source labelRule
  have hproposals' := proposals_inOrder (Spelling.capitals.text source) labelRule
  have hunpublished : ∀ t ∈ proposals source labelRule,
      (∀ k ∈ (ofRules (defaultRules.take 2) source).tokens, ¬ t.span.Overlaps k.span) →
        ¬ t.IsPublished source := by
    intro t ht hfree
    apply h t _ (mem_proposals ht).1
    rw [tokens_classify]
    apply (Token.sublist_claimAll _ _).subset
    exact (Token.mem_claimAll hproposals hkept).mpr (.inr ⟨ht, hfree⟩)
  apply (hkept'.claimAll hproposals'.1).ext
    (Spelling.inOrder_token (hkept.claimAll hproposals.1))
  intro u
  rw [Token.mem_claimAll hproposals' hkept', mem_proposals_capitals rfl rfl, List.mem_map,
    List.mem_map]
  simp only [Token.mem_claimAll hproposals hkept, List.forall_mem_map, Spelling.token_capitals]
  -- overlaps are the same on both sides, as capitals leave every span as it is
  constructor
  · rintro (⟨t, ht, rfl⟩ | ⟨⟨t, ht, -, rfl⟩, hfree⟩)
    · exact ⟨t, .inl ht, rfl⟩
    · exact ⟨t, .inr ⟨ht, hfree⟩, rfl⟩
  · rintro ⟨t, ht | ⟨ht, hfree⟩, rfl⟩
    · exact .inl ⟨t, ht, rfl⟩
    · exact .inr ⟨⟨t, ht, hunpublished t ht hfree, rfl⟩, hfree⟩

/-- Capital letters change nothing but labels after `public`, which are lost. -/
theorem tokens_capitals_iff (source : Text) :
    ((classify source.capitals).tokens = (classify source).tokens.map Token.capitals ↔
      ∀ t ∈ (classify source).tokens, t.category = .label → ¬ t.IsPublished source) ∧
    (classify source.capitals).blocks = (classify source).blocks.map ForeignBlock.capitals := by
  rw [Text.capitals, ← Spelling.text_capitals, ← Spelling.token_capitals source,
    ← Spelling.block_capitals source]
  refine ⟨⟨fun h t ht hc hpublished => ?_, fun h => ?_⟩, keepsBlocks_capitals.find⟩
  · have hm : Spelling.capitals.token source t ∈
        (classify (Spelling.capitals.text source)).tokens := by
      rw [h]
      exact List.mem_map_of_mem ht
    have hr : labelRule ∈ defaultRules := by decide
    obtain ⟨u, -, hu, hut⟩ :=
      (mem_proposals_capitals rfl rfl).mp (mem_proposals_of_category hr hm hc)
    rw [Spelling.token_capitals] at hut
    have hspan : u.capitals.span = t.capitals.span := congrArg Token.span hut
    replace hspan : u.span = t.span := hspan
    rw [Token.IsPublished, hspan] at hu
    exact hu hpublished
  · rw [tokens_classify, earlier_tokens_capitals, later_proposals_capitals, labels_capitals h,
      Spelling.claimAll_token, ← tokens_classify]

theorem public_not_capitals : ¬ ∀ source : Text,
    (classify source.capitals).tokens.map (fun t => (t.category, t.span)) =
      (classify source).tokens.map fun t => (t.category, t.span) := by
  intro h
  exact absurd (h "public a:") (by decide)

end Classification

end PioSyntax

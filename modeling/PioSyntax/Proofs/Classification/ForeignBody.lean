import PioSyntax.Proofs.Classification.Tokens
import PioSyntax.Proofs.ForeignBlock.Body
import PioSyntax.Proofs.Token.Around

namespace PioSyntax

open Text

namespace ForeignBlock.Frame

variable {F : Frame} {t : Token}

theorem upperTokens_before (ht : t ∈ F.upperTokens) :
    t.Before (F.before.length + F.opening.length) := by
  rcases List.mem_append.mp ht with ht | ht
  · have hplaced := placed_find F.before
    have hstop := (hplaced.token_bounds ht).2
    exact ⟨hplaced.tokens_inOrder.1 t ht, by omega⟩
  · obtain ⟨u, hu, rfl⟩ := List.mem_map.mp ht
    obtain ⟨hne, rfl⟩ := mem_spanToken.mp hu
    have hhead := F.opens.bounds
    simp only [Token.Before, Token.shift, Span.shift]
    omega

theorem lowerTokens_after (ht : t ∈ F.lowerTokens) : t.After F.tail.start := by
  have htail := F.closes.bounds
  rcases List.mem_append.mp ht with ht | ht
  · obtain ⟨hne, rfl⟩ := mem_spanToken.mp ht
    exact ⟨Nat.le_refl _, hne⟩
  · have hstart := (F.placed_later.token_bounds ht).1
    exact ⟨by omega, F.placed_later.tokens_inOrder.1 t ht⟩

theorem bodyTokens_within {body : Text} (ht : t ∈ F.bodyTokens body) :
    t.After F.start ∧ t.Before (F.start + body.length) := by
  rw [bodyTokens] at ht
  split at ht
  · cases ht
  · next h =>
      have hne : 0 < body.length := List.length_pos_iff.mpr h
      obtain rfl := List.mem_singleton.mp ht
      exact ⟨⟨Nat.le_refl _, Nat.lt_add_of_pos_right hne⟩, Nat.lt_add_of_pos_right hne,
        Nat.le_refl _⟩

theorem slice_body {body : Text} : (F.block body).body.slice (F.source body) = body := by
  rw [block, Span.slice, source_eq, start_eq, between_middle]

end ForeignBlock.Frame

namespace Classification

open ForeignBlock

variable {rules : List Rule} {first last : List Segment} {n : Nat}
variable {F : Frame} {body : Text}

theorem lacksGroup_shift :
    lacksGroup rules ((first ++ last.map (Segment.shift n)).filter (·.text ≠ [])) =
      lacksGroup rules ((first ++ last).filter (·.text ≠ [])) := by
  have hfilter : (last.map (Segment.shift n)).filter (·.text ≠ []) =
      (last.filter (·.text ≠ [])).map (Segment.shift n) := List.filter_map
  simp only [lacksGroup, List.filter_append, List.any_append, hfilter, List.any_map,
    Function.comp_def, Pattern.find_shift, List.isEmpty_map]

/-- Before and after a body the rules see always the same, however that body reads. -/
theorem tokens_source (h : IsBody body)
    (hfirst : ∀ s ∈ first, s.stop ≤ F.before.length + F.opening.length)
    (hlast : ∀ s ∈ last, F.tail.start ≤ s.start)
    (hs : segmentsFrom (F.source body) 0 (find (F.source body)) =
      first ++ last.map (Segment.shift (F.start + body.length))) :
    (ofRules rules (F.source body)).tokens =
      Token.claimAll (rules.flatMap fun r => first.flatMap r.candidates) F.upperTokens ++
        (F.bodyTokens body ++
          (Token.claimAll (rules.flatMap fun r => last.flatMap r.candidates) F.lowerTokens).map
            (Token.shift (F.start + body.length))) := by
  have hproposals : proposals (F.source body) = fun r => first.flatMap r.candidates ++
      ([] ++ (last.flatMap r.candidates).map (Token.shift (F.start + body.length))) := by
    funext r
    rw [proposals_eq, hs, List.flatMap_append, List.flatMap_map, List.map_flatMap, List.nil_append]
    simp only [Rule.candidates_segment_shift]
  have hkept : blockTokens (F.source body) = F.upperTokens ++
      (F.bodyTokens body ++ F.lowerTokens.map (Token.shift (F.start + body.length))) :=
    Frame.blockTokens_source h
  have horder := blockTokens_inOrder (F.source body)
  rw [hkept] at horder
  rw [tokens_ofRules, hkept, hproposals, ← Token.claimAll_shift, List.map_flatMap]
  apply Token.claimAll_around (n := F.before.length + F.opening.length)
    (m := F.start + body.length)
  · rw [Frame.start]
    omega
  · exact fun r _ t ht => candidates_before hfirst ht
  · simp
  · exact fun r _ => Token.shift_after fun t ht => (candidates_after hlast ht).2
  · exact fun t ht => Frame.upperTokens_before ht
  · intro t ht
    obtain ⟨hafter, hbefore⟩ := Frame.bodyTokens_within ht
    exact ⟨hafter.mono (Nat.le_succ _), hbefore⟩
  · exact Token.shift_after fun t ht => (Frame.lowerTokens_after ht).2
  · exact horder

/-- What stands in the body of a foreign block has no influence on the rest of the source: a rule
fails for any body or for none, the tokens before the body and after it are the same, and the body
is one token, unless it is empty. -/
theorem foreign_body_opaque (rules : List Rule) (F : Frame) :
    (∀ body, IsBody body → ofRules? rules (F.source body) = .error .noSuchGroup) ∨
    ∃ left right : List Token,
      (∀ t ∈ left, t.span.stop ≤ F.before.length + F.opening.length) ∧
      (∀ t ∈ right, F.tail.start ≤ t.span.start) ∧
      ∀ body, IsBody body → ∃ c, ofRules? rules (F.source body) = .ok c ∧
        c.tokens = left ++ (F.bodyTokens body ++
          right.map (Token.shift (F.start + body.length))) ∧
        c.blocks = F.earlier ++ F.block body ::
          F.later.map (ForeignBlock.shift (F.start + body.length)) ∧
        c.foreignBodies[F.earlier.length]? =
          some (F.language, ⟨F.start, F.start + body.length⟩, body) := by
  obtain ⟨first, hfirst, hsegments⟩ := F.exists_segments_source
  have htail := F.closes.bounds
  have hplaced : Placed F.lower.length F.tail.stop F.later := F.placed_later.mono (by omega)
  have hlower : F.tail.stop ≤ F.lower.length := by
    rw [Frame.lower, List.length_append]
    omega
  have hfirst' : ∀ s ∈ first, s.stop ≤ F.before.length + F.opening.length :=
    fun s hs => Nat.le_of_lt_succ (hfirst s hs)
  have hlast : ∀ s ∈ segmentsFrom F.lower F.tail.stop F.later, F.tail.start ≤ s.start := by
    intro s hs
    have := ((hplaced.segments hlower).1 s hs).1
    omega
  generalize segmentsFrom F.lower F.tail.stop F.later = last at *
  have hlacks {body : Text} (h : IsBody body) :
      lacksGroup rules (segments (F.source body) (find (F.source body))) =
        lacksGroup rules ((first ++ last).filter (·.text ≠ [])) := by
    rw [segments, hsegments body h, lacksGroup_shift]
  by_cases hg : lacksGroup rules ((first ++ last).filter (·.text ≠ [])) = true
  · apply Or.inl
    intro body h
    rw [ofRules?, hlacks h, if_pos hg]
  · refine .inr ⟨Token.claimAll (rules.flatMap fun r => first.flatMap r.candidates) F.upperTokens,
      Token.claimAll (rules.flatMap fun r => last.flatMap r.candidates) F.lowerTokens, ?_, ?_, ?_⟩
    · intro t ht
      rcases Token.mem_or_mem_of_mem_claimAll ht with ht | ht
      · exact (Frame.upperTokens_before ht).2
      · obtain ⟨r, -, ht⟩ := List.mem_flatMap.mp ht
        exact (candidates_before hfirst' ht).2
    · intro t ht
      rcases Token.mem_or_mem_of_mem_claimAll ht with ht | ht
      · exact (Frame.lowerTokens_after ht).1
      · obtain ⟨r, -, ht⟩ := List.mem_flatMap.mp ht
        exact (candidates_after hlast ht).1
    · intro body h
      refine ⟨ofRules rules (F.source body), ?_, ?_, ?_, ?_⟩
      · rw [ofRules?, hlacks h, if_neg hg]
      · exact tokens_source h hfirst' hlast (hsegments body h)
      · exact Frame.find_source h
      · have hbody : (F.block body).body.slice (F.source body) = body := Frame.slice_body
        have hblocks : (ofRules rules (F.source body)).blocks = _ := Frame.find_source h
        rw [foreignBodies, hblocks, List.getElem?_map, List.getElem?_append_right (Nat.le_refl _),
          Nat.sub_self, List.getElem?_cons_zero, Option.map_some]
        exact congrArg (fun text => some (F.language, _, text)) hbody

def nopFrame : Frame where
  before := "jmp x\n"
  opening := "% c \x7b"
  closing := "%\x7d"
  after := "\nnop"
  language := "c"
  head := ⟨0, 5⟩
  tail := ⟨0, 2⟩
  whole := by decide
  terminated := by decide
  opens := by decide
  closes := by decide
  ends := by decide

theorem foreign_body_opaque_nop : ∃ left right : List Token, ∃ c d : Classification,
    ofRules? defaultRules (nopFrame.source "/* nop\n") = .ok c ∧
    ofRules? defaultRules (nopFrame.source []) = .ok d ∧
    c.tokens = left ++ (⟨.foreignBlock, ⟨12, 19⟩, "/* nop\n"⟩ :: right.map (Token.shift 19)) ∧
    d.tokens = left ++ right.map (Token.shift 12) := by
  rcases foreign_body_opaque defaultRules nopFrame with h | ⟨left, right, -, -, h⟩
  · have hfails := h [] (by decide)
    rw [ofRules?_of_hasGroup (by decide)] at hfails
    cases hfails
  · obtain ⟨c, hc, hctokens, -⟩ := h "/* nop\n" (by decide)
    obtain ⟨d, hd, hdtokens, -⟩ := h [] (by decide)
    exact ⟨left, right, c, d, hc, hd, hctokens, hdtokens⟩

end Classification

end PioSyntax

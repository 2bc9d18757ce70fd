import PioSyntax.Proofs.Pattern.BlockComment
import PioSyntax.Proofs.Rule.Brackets
import PioSyntax.Proofs.Token.Around

namespace PioSyntax.Rule

open Text Pattern

variable {r : Rule} {before : Option Char} {s t inner : Text} {start : Nat} {u : Token}

theorem exists_candidates_comment (hp : r.pattern = .comment) (hg : r.group = 0)
    (hu : u ∈ r.candidates ⟨start, before, s ++ '/' :: t⟩) (hs : u.span.start = start + s.length) :
    ∃ left : List Token, ∀ inner t', ¬ ['*', '/'] <:+: inner →
      r.candidates ⟨start, before, s ++ (blockComment inner ++ t')⟩ =
        left ++ ⟨r.category, ⟨start + s.length, start + s.length + (blockComment inner).length⟩,
          blockComment inner⟩ ::
        r.candidates ⟨start + s.length + (blockComment inner).length, some '/', t'⟩ := by
  obtain ⟨f, hf, hu⟩ := List.mem_filterMap.mp hu
  simp only [find, hp] at hf
  have hgroup (hit : Hit) : r.groupOf hit = some ⟨0, hit.size⟩ := by simp [groupOf, hg]
  have hstart : f.start = start + s.length := by
    obtain ⟨part, hpart, -, rfl⟩ := token?_eq_some.mp hu
    rw [hgroup, Option.some.injEq] at hpart
    rw [← hs, ← hpart]
    rfl
  obtain ⟨found, hfound, hrest⟩ := exists_findFrom_comment hf hstart
  refine ⟨found.filterMap r.token?, fun inner t' hi => ?_⟩
  have hsearch : findFrom .comment 0 before start (s ++ (blockComment inner ++ t')) =
      found.map (Found.extend (blockComment inner ++ t')) ++
        findFrom .comment 0 (charBefore before s) (start + s.length) (blockComment inner ++ t') :=
    hrest _
  have hleft : (found.map (Found.extend (blockComment inner ++ t'))).filterMap r.token? =
      found.filterMap r.token? := by
    rw [List.filterMap_map]
    apply List.filterMap_congr
    intro g hg
    apply token?_extend
    intro part hpart
    rw [hgroup, Option.some.injEq] at hpart
    rw [← hpart]
    exact hfound g hg
  have htoken : r.token? ⟨start + s.length, blockComment inner ++ t',
      ⟨(blockComment inner).length, none⟩⟩ = some ⟨r.category,
        ⟨start + s.length, start + s.length + (blockComment inner).length⟩, blockComment inner⟩ := by
    refine token?_eq_some.mpr ⟨_, hgroup _, ?_, ?_⟩
    · rw [length_blockComment]
      exact Nat.succ_pos _
    · simp [Span.shift, Span.slice, between]
  simp only [candidates, find, hp]
  rw [hsearch, findFrom_blockComment hi, List.filterMap_append, hleft, List.filterMap_cons, htoken]

theorem exists_candidates_around (start : Nat) (before : Option Char) (s inner t : Text)
    (hr : r.pattern.Separates '/' ∨ r.pattern = .arrayIndex ∧ r.group = 1) :
    ∃ middle : List Token,
      (∀ u ∈ middle, u.span.Overlaps
        ⟨start + s.length, start + s.length + (blockComment inner).length⟩) ∧
      r.candidates ⟨start, before, s ++ (blockComment inner ++ t)⟩ =
        r.candidates ⟨start, before, s⟩ ++ (middle ++
          (r.candidatesAfter (s ++ blockComment inner) t).map
            (Token.shift (start + s.length + (blockComment inner).length))) := by
  rcases hr with hp | ⟨hp, hg⟩
  · have hcomment : r.pattern ≠ .comment := by
      intro h
      rw [h] at hp
      exact absurd hp (by decide)
    have harray : r.pattern ≠ .arrayIndex := by
      intro h
      rw [h] at hp
      exact absurd hp (by decide)
    have hafter : r.candidatesAfter (s ++ blockComment inner) t = r.candidates ⟨0, some '/', t⟩ := by
      rw [candidatesAfter, List.filter_eq_self]
      simp [harray]
    have htext : s ++ (blockComment inner ++ t) =
        s ++ '/' :: ('*' :: (inner ++ ['*']) ++ '/' :: t) := by simp [blockComment]
    have hend : start + s.length + 1 + ('*' :: (inner ++ ['*'])).length + 1 =
        start + s.length + (blockComment inner).length + 0 := by
      simp only [length_blockComment, List.length_append, List.length_cons, List.length_nil]
      omega
    refine ⟨r.candidates ⟨start + s.length + 1, some '/', '*' :: (inner ++ ['*'])⟩, ?_, ?_⟩
    · intro u hu
      obtain ⟨-, hstart, hne, hstop, -⟩ := mem_candidates hu
      simp only [Span.overlaps_iff, length_blockComment, List.length_append, List.length_cons,
        List.length_nil] at hstart hstop ⊢
      omega
    · have hrest : r.candidates ⟨start + s.length + (blockComment inner).length + 0, some '/', t⟩ =
          (r.candidates ⟨0, some '/', t⟩).map
            (Token.shift (start + s.length + (blockComment inner).length)) := candidates_shift
      rw [htext, candidates_append hp fun h => absurd h hcomment,
        candidates_append hp fun h => absurd h hcomment, hend, hrest, hafter]
  · -- array indexes may reach over the comment, so both sides are compared token by token
    have hinorder : Token.InOrder (r.candidates ⟨start, before, s ++ (blockComment inner ++ t)⟩) :=
      candidates_inOrder _ _
    obtain ⟨middle, hm, he⟩ := hinorder.exists_split
      (Nat.le_add_right (start + s.length) (blockComment inner).length)
    refine ⟨middle, ?_, he.trans ?_⟩
    · intro u hu
      obtain ⟨hu, hstop, hstart⟩ := hm u hu
      have hne := (mem_candidates hu).2.2.1
      rw [length_blockComment] at hstart ⊢
      rw [Span.overlaps_iff]
      simp only
      omega
    have hleft : (r.candidates ⟨start, before, s ++ (blockComment inner ++ t)⟩).filter
        (·.span.stop ≤ start + s.length) = r.candidates ⟨start, before, s⟩ := by
      apply (hinorder.sublist List.filter_sublist).ext (candidates_inOrder _ _)
      intro u
      rw [List.mem_filter, decide_eq_true_eq]
      exact mem_candidates_arrayIndex_left hp hg (by decide)
    have hright : (r.candidates ⟨start, before, s ++ (blockComment inner ++ t)⟩).filter
        (start + s.length + (blockComment inner).length ≤ ·.span.start) =
        (r.candidatesAfter (s ++ blockComment inner) t).map
          (Token.shift (start + s.length + (blockComment inner).length)) := by
      have hafter : Token.InOrder (r.candidatesAfter (s ++ blockComment inner) t) :=
        (candidates_inOrder _ _).sublist List.filter_sublist
      apply (hinorder.sublist List.filter_sublist).ext (Token.inOrder_shift.mpr hafter)
      intro u
      have htext : s ++ (blockComment inner ++ t) =
          s ++ '/' :: '*' :: (inner ++ ['*']) ++ '/' :: t := by simp [blockComment]
      have hopen : s ++ blockComment inner = s ++ '/' :: '*' :: (inner ++ ['*']) ++ ['/'] := by
        simp [blockComment]
      have hlen : start + s.length + (blockComment inner).length =
          start + (s ++ '/' :: '*' :: (inner ++ ['*'])).length + 1 := by
        simp only [length_blockComment, List.length_append, List.length_cons, List.length_nil]
        omega
      rw [List.mem_filter, decide_eq_true_eq, htext, hopen, hlen,
        mem_candidates_arrayIndex_right hp hg (by decide), List.mem_map]
    rw [hleft, hright]

end PioSyntax.Rule

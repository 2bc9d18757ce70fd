import PioSyntax.Proofs.Pattern.BlockComment
import PioSyntax.Proofs.Text.Spelling

namespace PioSyntax

open Text

namespace Pattern

variable {p : Pattern} {before : Option Char} {s t taken rest : Text} {start : Nat} {part : Span}
variable {hit : Hit}

theorem Takes.part_start_le (h : Takes p before taken rest (some part)) :
    part.start ≤ part.stop := by
  cases h with
  | directive | label | publicLabel | arrayIndex => dsimp only; omega

theorem size_pos {d : Char} (hp : p.Separates d) (h : p.recognise before t = some hit) :
    0 < hit.size := by
  obtain ⟨taken, rest, part, rfl, rfl, ht⟩ := recognise_iff.mp h
  exact List.length_pos_iff.mpr (ht.ne_nil hp)

theorem findFrom_pass (h : ∀ u v, s = u ++ v → v ≠ [] →
    p.recognise (charBefore before u) (v ++ t) = none) :
    findFrom p 0 before start (s ++ t) =
      findFrom p 0 (charBefore before s) (start + s.length) t := by
  induction s generalizing before start with
  | nil => rfl
  | cons c s ih =>
      have hc : p.recognise before (c :: (s ++ t)) = none := h [] (c :: s) rfl (by simp)
      have hrest : ∀ u v, s = u ++ v → v ≠ [] →
          p.recognise (charBefore (some c) u) (v ++ t) = none := by
        intro u v hs hv
        rw [← charBefore_cons before]
        exact h (c :: u) v (by rw [hs, List.cons_append]) hv
      rw [List.cons_append]
      simp only [findFrom, hc]
      rw [ih hrest, charBefore_cons, List.length_cons, Nat.add_assoc, Nat.add_comm 1]

end Pattern

namespace Spelling

open Pattern

variable (R : Spelling) {source text t : Text} {before : Option Char} {c : Char} {s : Segment}
variable {start stop skip : Nat} {part : Span} {p : Pattern} {r : Rule} {f : Found}

def inner (t : Text) (s : Span) : Span :=
  ⟨(R.text (t.take s.start)).length, (R.text (t.take s.stop)).length⟩

def hit (t : Text) (h : Hit) : Hit := ⟨(R.text (t.take h.size)).length, h.part.map (R.inner t)⟩

def found (source : Text) (f : Found) : Found :=
  ⟨R.move source f.start, R.text f.text, R.hit f.text f.hit⟩

def segment (source : Text) (s : Segment) : Segment :=
  ⟨R.move source s.start, R.before s.before, R.text s.text⟩

/-- The pattern takes the same of a source whether it is spelled or not. -/
structure Keeps (source : Text) (p : Pattern) : Prop where
  size_pos : ∀ before t hit, p.recognise before t = some hit → 0 < hit.size
  same : ∀ before t, t ⊆ source →
    p.recognise (R.before before) (R.text t) = (p.recognise before t).map (R.hit t)
  within : ∀ c s t rest, R.spell c = s ++ t → s ≠ [] → t ≠ [] →
    p.recognise s.getLast? (t ++ rest) = none

variable {R}

theorem charBefore_spell (before : Option Char) (c : Char) :
    charBefore (R.before before) (R.spell c) = R.before (some c) := by
  rw [← text_singleton, charBefore_text]
  rfl

theorem inner_shift (h : IsAt source start t) (hs : part.start ≤ part.stop)
    (he : part.stop ≤ t.length) :
    (R.inner t part).shift (R.move source start) = R.span source (part.shift start) := by
  rw [inner, Span.shift, ← R.move_add_take h (Nat.le_trans hs he), ← R.move_add_take h he]
  rfl

theorem slice_inner (h : part.start ≤ part.stop) :
    (R.inner t part).slice (R.text t) = R.text (part.slice t) := R.between_text t h

theorem length_text_take (t : Text) (n : Nat) :
    (R.text (t.take n)).length = R.move t (min n t.length) := by
  rw [R.move_of_le (Nat.min_le_right _ _), ← List.take_eq_take_min]

theorem isEmpty_inner (h : part.stop ≤ t.length) :
    (R.inner t part).IsEmpty ↔ part.IsEmpty := by
  rw [Span.IsEmpty, Span.IsEmpty, inner, length_text_take, length_text_take, move_le_move]
  omega

/-- Nothing is found within the spelling of a character, if nothing is found where it begins. -/
theorem Keeps.findFrom_spell (h : R.Keeps source p)
    (hp : p.recognise before (R.spell c ++ t) = none) :
    p.findFrom 0 before start (R.spell c ++ t) =
      p.findFrom 0 (charBefore before (R.spell c)) (start + (R.spell c).length) t := by
  apply findFrom_pass
  intro u v huv hv
  by_cases hu : u = []
  · subst hu
    rw [List.nil_append] at huv
    rw [← huv]
    exact hp
  · rw [charBefore, List.getLast?_eq_some_getLast hu, Option.some_or,
      ← List.getLast?_eq_some_getLast hu]
    exact h.within c u v t huv hu hv

/-- After a hit the search goes on in what it leaves of the text, when this is spelled. -/
theorem findFrom_hit {hit : Hit} {n : Nat} (hn : hit.size = n + 1)
    (hp : p.recognise before (R.text (c :: t)) = some (R.hit (c :: t) hit)) :
    p.findFrom 0 before start (R.text (c :: t)) =
      ⟨start, R.text (c :: t), R.hit (c :: t) hit⟩ ::
        p.findFrom (R.text (t.take n)).length (charBefore before (R.spell c))
          (start + (R.spell c).length) (R.text t) := by
  -- the search moves by one character, so the spelling of `c` is cut after its first one
  obtain ⟨d, ds, hd⟩ := List.exists_cons_of_ne_nil (R.spell_ne_nil c)
  have htext : R.text (c :: t) = d :: (ds ++ R.text t) := by
    rw [text_cons, hd, List.cons_append]
  rw [htext] at hp ⊢
  simp only [Pattern.findFrom, hp]
  rw [Spelling.hit, hn, R.length_text_take_succ hd, findFrom_skip_add, hd, charBefore_cons,
    List.length_cons, Nat.add_assoc, Nat.add_comm 1]

theorem Keeps.findFrom (h : R.Keeps source p) (before : Option Char) (ht : IsAt source start t)
    (hs : skip ≤ t.length) :
    p.findFrom (R.text (t.take skip)).length (R.before before) (R.move source start) (R.text t) =
      (p.findFrom skip before start t).map (R.found source) := by
  induction t generalizing skip before start with
  | nil =>
      have hnone (before : Option Char) : p.recognise before [] = none := by
        apply Option.eq_none_iff_forall_ne_some.mpr
        intro hit hr
        exact absurd (size_le hr) (Nat.not_le_of_lt (h.size_pos _ _ _ hr))
      obtain rfl := Nat.le_zero.mp hs
      simp [Pattern.findFrom, hnone]
  | cons c t ih =>
      have hlater {skip : Nat} (hs : skip ≤ t.length) :
          p.findFrom (R.text (t.take skip)).length (charBefore (R.before before) (R.spell c))
            (R.move source start + (R.spell c).length) (R.text t) =
            (p.findFrom skip (some c) (start + 1) t).map (R.found source) := by
        rw [charBefore_spell, ← R.move_succ ht]
        exact ih (some c) ht.tail hs
      cases skip with
      | succ skip =>
          rw [List.take_succ_cons, text_cons, text_cons, List.length_append, findFrom_skip_add]
          exact hlater (Nat.le_of_succ_le_succ hs)
      | zero =>
          have hsame := h.same before (c :: t) ht.subset
          rw [List.take_zero, text_nil, List.length_nil]
          cases hr : p.recognise before (c :: t) with
          | none =>
              rw [hr, Option.map_none, text_cons] at hsame
              rw [text_cons, h.findFrom_spell hsame]
              simp only [Pattern.findFrom, hr]
              exact hlater (Nat.zero_le _)
          | some hit =>
              obtain ⟨n, hn⟩ := Nat.exists_eq_succ_of_ne_zero (Nat.ne_of_gt (h.size_pos _ _ _ hr))
              have hsize := size_le hr
              rw [hn, List.length_cons] at hsize
              rw [hr, Option.map_some] at hsame
              rw [findFrom_hit hn hsame, hlater (Nat.le_of_succ_le_succ hsize)]
              simp only [Pattern.findFrom, hr, hn, Nat.succ_sub_one, List.map_cons]
              rfl

theorem groupOf_hit (r : Rule) (t : Text) (hit : Hit) :
    r.groupOf (R.hit t hit) = (r.groupOf hit).map (R.inner t) := by
  unfold Rule.groupOf
  split
  · rw [Option.map_some, inner, List.take_zero, text_nil]
    rfl
  · split
    · rfl
    · rfl

theorem token?_found (ht : IsAt source f.start f.text)
    (hr : r.pattern.recognise before f.text = some f.hit) :
    r.token? (R.found source f) = (r.token? f).map (R.token source) := by
  rw [Rule.token?, Rule.token?, found, groupOf_hit]
  cases hg : r.groupOf f.hit with
  | none => rfl
  | some part =>
      have hle : part.stop ≤ f.text.length := Nat.le_trans (Rule.groupOf_le hr hg) (size_le hr)
      simp only [Option.map_some, Option.bind_some, isEmpty_inner hle]
      split
      · rfl
      · next he =>
          have hpart : part.start ≤ part.stop := Nat.le_of_lt (Nat.lt_of_not_le he)
          rw [inner_shift ht hpart hle, slice_inner hpart]
          rfl

/-- A rule proposes the same of a segment whether it is spelled or not. -/
theorem Keeps.candidates (h : R.Keeps source r.pattern) (hs : IsAt source s.start s.text) :
    r.candidates (R.segment source s) = (r.candidates s).map (R.token source) := by
  have hfind : r.pattern.find (R.segment source s) =
      (r.pattern.find s).map (R.found source) := by
    have h₀ := h.findFrom s.before hs (Nat.zero_le _)
    rwa [List.take_zero, text_nil, List.length_nil] at h₀
  rw [Rule.candidates, Rule.candidates, hfind, List.filterMap_map, List.map_filterMap]
  apply List.filterMap_congr
  intro f hf
  obtain ⟨pre, htext, hstart, hr⟩ := mem_find hf
  rw [htext] at hs
  have hat : IsAt source f.start f.text := hstart ▸ hs.right
  exact token?_found hat hr

end Spelling

end PioSyntax

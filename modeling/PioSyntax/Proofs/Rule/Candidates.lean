import Mathlib.Data.List.Pairwise
import PioSyntax.Proofs.Pattern.Grammar
import PioSyntax.Proofs.Text.Between
import PioSyntax.Proofs.Token.Claim

namespace PioSyntax

open Text

namespace Pattern

variable {p : Pattern} {before : Option Char} {text taken rest : Text} {part : Span} {hit : Hit}
variable {skip start : Nat} {f : Found}

theorem Takes.part_le (h : Takes p before taken rest (some part)) : part.stop ≤ taken.length := by
  cases h with
  | directive | label | publicLabel | arrayIndex =>
      have hp : "public".toList.length = 6 := rfl
      simp only [List.length_append, List.length_cons, List.length_nil, hp]
      omega

theorem size_le (h : p.recognise before text = some hit) : hit.size ≤ text.length := by
  obtain ⟨taken, rest, part, rfl, rfl, -⟩ := recognise_iff.mp h
  simp

theorem mem_findFrom (h : f ∈ findFrom p skip before start text) :
    ∃ pre, text = pre ++ f.text ∧ f.start = start + pre.length ∧ skip ≤ pre.length ∧
      p.recognise (charBefore before pre) f.text = some f.hit := by
  induction text generalizing skip before start with
  | nil =>
      unfold findFrom at h
      split at h
      · next hr =>
          obtain rfl := List.mem_singleton.mp h
          exact ⟨[], rfl, rfl, Nat.le_refl 0, hr⟩
      · cases h
  | cons c text ih =>
      -- what is found in the rest of the text is found one character further on
      have later {skip : Nat} (h : f ∈ findFrom p skip (some c) (start + 1) text) :
          ∃ pre, c :: text = pre ++ f.text ∧ f.start = start + pre.length ∧
            skip + 1 ≤ pre.length ∧ p.recognise (charBefore before pre) f.text = some f.hit := by
        obtain ⟨pre, rfl, hs, hk, hr⟩ := ih h
        refine ⟨c :: pre, rfl, ?_, ?_, by rwa [charBefore_cons]⟩
        · rw [hs, List.length_cons]; omega
        · rw [List.length_cons]; omega
      cases skip with
      | succ skip => exact later h
      | zero =>
          simp only [findFrom] at h
          split at h
          · next hit hr =>
              rcases List.mem_cons.mp h with rfl | h
              · exact ⟨[], rfl, rfl, Nat.le_refl 0, hr⟩
              · obtain ⟨pre, ht, hs, -, hr⟩ := later h
                exact ⟨pre, ht, hs, Nat.zero_le _, hr⟩
          · obtain ⟨pre, ht, hs, -, hr⟩ := later h
            exact ⟨pre, ht, hs, Nat.zero_le _, hr⟩

theorem start_le_of_mem_findFrom (h : f ∈ findFrom p skip before start text) :
    start + skip ≤ f.start := by
  obtain ⟨pre, -, hs, hk, -⟩ := mem_findFrom h
  omega

theorem findFrom_pairwise : (findFrom p skip before start text).Pairwise
    fun f g => f.start + f.hit.size ≤ g.start := by
  induction text generalizing skip before start with
  | nil =>
      unfold findFrom
      split
      · exact List.pairwise_singleton _ _
      · exact .nil
  | cons c text ih =>
      cases skip with
      | succ skip => exact ih
      | zero =>
          simp only [findFrom]
          split
          · next hit hr =>
              refine List.pairwise_cons.mpr ⟨fun g hg => ?_, ih⟩
              have := start_le_of_mem_findFrom hg
              simp only
              omega
          · exact ih

theorem eq_of_mem_findFrom {g : Found} (hf : f ∈ findFrom p skip before start text)
    (hg : g ∈ findFrom p skip before start text) (h : f.start < g.start + g.hit.size)
    (h' : g.start < f.start + f.hit.size) : f = g := by
  by_cases hne : f = g
  · exact hne
  · have hapart : (findFrom p skip before start text).Pairwise
        fun f g => f.start + f.hit.size ≤ g.start ∨ g.start + g.hit.size ≤ f.start :=
      findFrom_pairwise.imp fun h => .inl h
    have : Std.Symm fun f g : Found =>
        f.start + f.hit.size ≤ g.start ∨ g.start + g.hit.size ≤ f.start := ⟨fun _ _ => Or.symm⟩
    have := hapart.forall hf hg hne
    omega

/-- What could be recognised somewhere is found there, or lies in something that is found. -/
theorem exists_mem_findFrom (start : Nat) (hs : skip ≤ text.length)
    (h : p.recognise (charBefore before text) rest = some hit) :
    ∃ f ∈ findFrom p skip before start (text ++ rest), f.start ≤ start + text.length ∧
      (f.start = start + text.length ∨ start + text.length < f.start + f.hit.size) := by
  induction text generalizing skip before start with
  | nil =>
      obtain rfl := Nat.le_zero.mp hs
      refine ⟨⟨start, rest, hit⟩, ?_, Nat.le_refl _, .inl rfl⟩
      cases rest with
      | nil => simp [findFrom, charBefore_nil before ▸ h]
      | cons c rest => simp [findFrom, charBefore_nil before ▸ h]
  | cons c text ih =>
      have hlen : start + (c :: text).length = start + 1 + text.length := by
        rw [List.length_cons]
        omega
      rw [charBefore_cons] at h
      rw [hlen, List.cons_append]
      cases skip with
      | succ skip => exact ih (start + 1) (Nat.le_of_succ_le_succ hs) h
      | zero =>
          simp only [findFrom]
          split
          · next first hr =>
              by_cases hlong : first.size - 1 ≤ text.length
              · obtain ⟨f, hf, hplace⟩ := ih (start + 1) hlong h
                exact ⟨f, List.mem_cons_of_mem _ hf, hplace⟩
              · exact ⟨_, List.mem_cons_self, by dsimp only; omega, .inr (by dsimp only; omega)⟩
          · exact ih (start + 1) (Nat.zero_le _) h

theorem mem_find {s : Segment} (h : f ∈ p.find s) :
    ∃ pre, s.text = pre ++ f.text ∧ f.start = s.start + pre.length ∧
      p.recognise (charBefore s.before pre) f.text = some f.hit := by
  obtain ⟨pre, ht, hs, -, hr⟩ := mem_findFrom h
  exact ⟨pre, ht, hs, hr⟩

end Pattern

namespace Rule

open Pattern

variable {r : Rule} {s : Segment} {t : Token} {f : Found} {hit : Hit} {part : Span}

theorem groupOf_le {before : Option Char} {text : Text}
    (hr : r.pattern.recognise before text = some hit) (h : r.groupOf hit = some part) :
    part.stop ≤ hit.size := by
  obtain ⟨taken, rest, marked, rfl, rfl, ht⟩ := recognise_iff.mp hr
  unfold groupOf at h
  split at h
  · cases h
    exact Nat.le_refl _
  · split at h
    · dsimp only at h
      subst h
      exact ht.part_le
    · cases h

theorem token?_eq_some : r.token? f = some t ↔
    ∃ part, r.groupOf f.hit = some part ∧ part.start < part.stop ∧
      t = ⟨r.category, part.shift f.start, part.slice f.text⟩ := by
  simp only [token?, Option.bind_eq_some_iff]
  constructor
  · rintro ⟨part, hg, h⟩
    split at h
    · cases h
    · next he => exact ⟨part, hg, Nat.lt_of_not_le he, (Option.some.inj h).symm⟩
  · rintro ⟨part, hg, he, rfl⟩
    exact ⟨part, hg, if_neg (Nat.not_le_of_lt he)⟩

theorem mem_candidates (h : t ∈ r.candidates s) :
    t.category = r.category ∧ s.start ≤ t.span.start ∧ t.span.start < t.span.stop ∧
      t.span.stop ≤ s.start + s.text.length ∧
      t.text = s.text.between (t.span.start - s.start) (t.span.stop - s.start) := by
  obtain ⟨f, hf, ht⟩ := List.mem_filterMap.mp h
  obtain ⟨part, hg, he, rfl⟩ := token?_eq_some.mp ht
  obtain ⟨pre, htext, hstart, hr⟩ := mem_find hf
  have hpart := groupOf_le hr hg
  have hsize := size_le hr
  rw [htext, List.length_append]
  simp only [Span.shift, Span.slice, hstart]
  refine ⟨trivial, by omega, by omega, by omega, ?_⟩
  rw [Nat.add_assoc, Nat.add_sub_cancel_left, Nat.add_assoc, Nat.add_sub_cancel_left,
    between_append_right]

theorem candidates_nil {start : Nat} {before : Option Char} :
    r.candidates ⟨start, before, []⟩ = [] := by
  apply List.eq_nil_iff_forall_not_mem.mpr
  intro t ht
  obtain ⟨-, hstart, hne, hstop, -⟩ := mem_candidates ht
  simp only [List.length_nil] at hstart hstop
  omega

theorem candidates_inOrder (r : Rule) (s : Segment) : Token.InOrder (r.candidates s) := by
  refine ⟨fun t ht => (mem_candidates ht).2.2.1, ?_⟩
  refine List.pairwise_filterMap.mpr (findFrom_pairwise.imp_of_mem ?_)
  intro f g hf hg hfg t ht u hu
  obtain ⟨part, hpart, he, rfl⟩ := token?_eq_some.mp ht
  obtain ⟨part', -, -, rfl⟩ := token?_eq_some.mp hu
  obtain ⟨pre, -, -, hr⟩ := mem_find hf
  have := groupOf_le hr hpart
  simp only [Span.shift]
  omega

end Rule

end PioSyntax

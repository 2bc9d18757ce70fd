import PioSyntax.Proofs.Rule.Separator

namespace PioSyntax.Pattern

open Text

def blockComment (inner : Text) : Text := '/' :: '*' :: (inner ++ ['*', '/'])

variable {p : Pattern} {before : Option Char} {s t t' taken rest inner : Text} {skip start : Nat}
variable {c d : Char} {f : Found} {hit : Hit}

theorem length_blockComment : (blockComment inner).length = inner.length + 4 := by
  simp [blockComment]

theorem takes_blockComment (h : ¬ ['*', '/'] <:+: inner) :
    Takes .comment before (blockComment inner) rest none := by
  apply Takes.blockComment
  rw [List.infix_concat_iff, not_or]
  refine ⟨?_, h⟩
  rintro ⟨pre, he⟩
  simpa using congrArg List.getLast? he

theorem findFrom_skip_add (n : Nat) (s t : Text) :
    findFrom p (s.length + n) before start (s ++ t) =
      findFrom p n (charBefore before s) (start + s.length) t := by
  induction s generalizing before start with
  | nil => rw [List.length_nil, Nat.zero_add]; rfl
  | cons c s ih =>
      rw [List.length_cons, Nat.add_right_comm, List.cons_append, findFrom, ih, charBefore_cons,
        Nat.add_assoc, Nat.add_comm 1]

theorem findFrom_skip (s t : Text) : findFrom p s.length before start (s ++ t) =
    findFrom p 0 (charBefore before s) (start + s.length) t :=
  findFrom_skip_add 0 s t

theorem findFrom_hit (hr : p.recognise before (s ++ t) = some hit) (hs : hit.size = s.length)
    (hne : s ≠ []) : findFrom p 0 before start (s ++ t) =
      ⟨start, s ++ t, hit⟩ :: findFrom p 0 (charBefore before s) (start + s.length) t := by
  obtain ⟨c, s, rfl⟩ := List.exists_cons_of_ne_nil hne
  rw [List.cons_append] at hr ⊢
  simp only [findFrom, hr]
  rw [hs, List.length_cons, Nat.add_sub_cancel, findFrom_skip, charBefore_cons, Nat.add_assoc,
    Nat.add_comm 1]

theorem findFrom_blockComment (h : ¬ ['*', '/'] <:+: inner) :
    findFrom .comment 0 before start (blockComment inner ++ t) =
      ⟨start, blockComment inner ++ t, ⟨(blockComment inner).length, none⟩⟩ ::
        findFrom .comment 0 (some '/') (start + (blockComment inner).length) t := by
  have hlast : blockComment inner = '/' :: '*' :: (inner ++ ['*']) ++ ['/'] := by
    simp [blockComment]
  have hbefore : charBefore before (blockComment inner) = some '/' := by
    rw [hlast, charBefore_append]
    rfl
  rw [findFrom_hit (recognise_complete (takes_blockComment h)) rfl (by simp [blockComment]),
    hbefore]

theorem blockLength_cons (h : ¬ (c = '*' ∧ t.head? = some '/')) :
    blockLength (c :: t) = blockLength t + 1 := by
  rw [blockLength]
  rintro rest rfl rfl
  exact h ⟨rfl, rfl⟩

@[elab_as_elim]
theorem blockLength_induction {motive : Text → Prop} (t : Text) (nil : motive [])
    (closed : ∀ rest, motive ('*' :: '/' :: rest))
    (cons : ∀ c t, ¬ (c = '*' ∧ t.head? = some '/') → motive t → motive (c :: t)) : motive t := by
  induction t with
  | nil => exact nil
  | cons c t ih =>
      by_cases hc : c = '*' ∧ t.head? = some '/'
      · obtain ⟨rest, ht⟩ := List.head?_eq_some_iff.mp hc.2
        rw [hc.1, ht]
        exact closed rest
      · exact cons c t hc ih

theorem comment?_eq_none_iff : comment? (c :: d :: t) = none ↔
    c ≠ ';' ∧ ¬ (c = '/' ∧ (d = '/' ∨ d = '*')) := by
  unfold comment?
  split <;> simp_all

theorem comment?_eq_none (h : comment? (c :: (s ++ '/' :: t)) = none) :
    comment? (c :: (s ++ '/' :: t')) = none := by
  cases s with
  | nil =>
      rw [List.nil_append, comment?_eq_none_iff] at h ⊢
      exact h
  | cons d s =>
      rw [List.cons_append, comment?_eq_none_iff] at h ⊢
      exact h

/-- A comment that ends before a slash does not depend on what follows. -/
theorem comment?_of_le (h : comment? (s ++ '/' :: t) = some hit) (hs : hit.size ≤ s.length) :
    comment? (s ++ '/' :: t') = some hit := by
  obtain ⟨taken, rest, part, he, rfl, ht⟩ : ∃ taken rest part, s ++ '/' :: t = taken ++ rest ∧
      hit = ⟨taken.length, part⟩ ∧ Takes .comment none taken rest part := comment?_sound h
  have hprefix : taken <+: s := List.prefix_of_prefix_length_le ⟨rest, he.symm⟩ ⟨_, rfl⟩ hs
  obtain ⟨u, rfl⟩ := hprefix
  rw [List.append_assoc, List.append_cancel_left_eq] at he
  subst he
  have ht' : Takes .comment none taken (u ++ '/' :: t') part := by
    generalize hr : u ++ '/' :: t = rest at ht
    cases ht with
    | lineComment ho hb hr' =>
        refine .lineComment ho hb ?_
        cases u with
        | nil => simp [← hr, onLine] at hr'
        | cons c u => simpa [← hr] using hr'
    | blockComment hb => exact .blockComment hb
    | openComment hb => simp at hr
  rw [List.append_assoc]
  exact recognise_complete ht'

/-- Where a comment is found at a slash, everything that is found before it ends before it, and is
found whatever follows. -/
theorem exists_findFrom_comment (hf : f ∈ findFrom .comment skip before start (s ++ '/' :: t))
    (hs : f.start = start + s.length) :
    ∃ found : List Found, (∀ g ∈ found, g.hit.size ≤ g.text.length) ∧
      ∀ t', findFrom .comment skip before start (s ++ '/' :: t') =
        found.map (Found.extend ('/' :: t')) ++
          findFrom .comment 0 (charBefore before s) (start + s.length) ('/' :: t') := by
  induction s generalizing skip before start with
  | nil =>
      have hle := start_le_of_mem_findFrom hf
      rw [hs, List.length_nil] at hle
      obtain rfl : skip = 0 := by omega
      exact ⟨[], by simp, fun _ => rfl⟩
  | cons c s ih =>
      have ho : start + (c :: s).length = start + 1 + s.length := by
        rw [List.length_cons]
        omega
      rw [ho] at hs
      simp only [List.cons_append, charBefore_cons, ho] at hf ⊢
      cases skip with
      | succ skip => exact ih hf hs
      | zero =>
          cases hr : comment? (c :: (s ++ '/' :: t)) with
          | none =>
              have hnone (t' : Text) : recognise .comment before (c :: (s ++ '/' :: t')) = none :=
                comment?_eq_none hr
              simp only [findFrom, hnone] at hf ⊢
              exact ih hf hs
          | some hit =>
              simp only [findFrom, recognise, hr] at hf
              rcases List.mem_cons.mp hf with rfl | hf
              · simp only at hs
                omega
              · -- the search finds the comment at the slash, so it is not within this one
                have hle := start_le_of_mem_findFrom hf
                have hsize : hit.size ≤ (c :: s).length := by
                  rw [List.length_cons]
                  omega
                have hsome (t' : Text) :
                    recognise .comment before (c :: (s ++ '/' :: t')) = some hit :=
                  comment?_of_le (s := c :: s) hr hsize
                obtain ⟨found, hfound, hrest⟩ := ih hf hs
                refine ⟨⟨start, c :: s, hit⟩ :: found, List.forall_mem_cons.mpr ⟨hsize, hfound⟩,
                  fun t' => ?_⟩
                simp only [findFrom, hsome, hrest]
                rfl

end PioSyntax.Pattern

import PioSyntax.Proofs.Text.Runs

namespace PioSyntax.Text

/-- A text cut at its marks, each of which opens with one character and goes on to the next that
closes it: what stands before the first mark, and what is in each mark with what stands between it
and the next. -/
def marks? (opening closing : Char) (text : Text) : Option (Text × List (Text × Text)) :=
  match text.splitOn opening with
  | [] => none
  | lead :: pieces => (pieces.mapM (cut? closing)).map fun marks => (lead, marks)

variable {opening closing c : Char} {s t inner : Text}

theorem cut?_append (h : c ∉ s) : cut? c (s ++ c :: t) = some (s, t) := by
  induction s with
  | nil => simp [cut?]
  | cons d s ih =>
      rw [List.mem_cons, not_or] at h
      rw [List.cons_append, cut?, if_neg (Ne.symm h.1), ih h.2]
      rfl

theorem cut?_eq_none_iff : cut? c s = none ↔ c ∉ s := by
  induction s with
  | nil => simp [cut?]
  | cons d s ih =>
      by_cases hd : d = c
      · simp [cut?, hd]
      · simp [cut?, hd, Ne.symm hd, ih]

theorem splitOn_append (h : c ∉ s) :
    ∃ lead pieces, splitOn c t = lead :: pieces ∧ splitOn c (s ++ t) = (s ++ lead) :: pieces := by
  induction s with
  | nil =>
      obtain ⟨lead, pieces, hp⟩ := List.exists_cons_of_ne_nil (List.splitOn_ne_nil c t)
      rw [← splitOn_eq] at hp
      exact ⟨lead, pieces, hp, hp⟩
  | cons d s ih =>
      rw [List.mem_cons, not_or] at h
      obtain ⟨lead, pieces, hp, hs⟩ := ih h.2
      refine ⟨lead, pieces, hp, ?_⟩
      rw [List.cons_append, splitOn, if_neg (Ne.symm h.1), hs]
      rfl

theorem splitOn_join {pieces : List Text} (hne : pieces ≠ []) (h : ∀ piece ∈ pieces, c ∉ piece) :
    splitOn c (join [c] pieces) = pieces := by
  rw [splitOn_eq, join, List.splitOn_intercalate c h hne]

theorem join_append_cons (separator gap piece : Text) (pieces : List Text) :
    join separator ((gap ++ piece) :: pieces) = gap ++ join separator (piece :: pieces) := by
  cases pieces <;> simp [join, List.intercalate_cons_cons]

/-- A separator may end with what could also begin each piece but the first. -/
theorem join_gap (separator gap piece : Text) (pieces : List Text) :
    join (separator ++ gap) (piece :: pieces) =
      join separator (piece :: pieces.map (gap ++ ·)) := by
  induction pieces generalizing piece with
  | nil => rfl
  | cons next pieces ih =>
      have hnext := join_append_cons separator gap next (pieces.map (gap ++ ·))
      rw [← ih next] at hnext
      simp only [join, List.map_cons, List.intercalate_cons_cons, List.append_assoc] at hnext ⊢
      rw [hnext]

/-- Pieces that are joined already can be joined along with others. -/
theorem join_append_join {separator : Text} {pieces : List Text} (hne : pieces ≠ [])
    (first : List Text) :
    join separator (first ++ [join separator pieces]) = join separator (first ++ pieces) := by
  induction first with
  | nil => exact List.intercalate_singleton
  | cons piece first ih =>
      simp only [join, List.cons_append] at ih ⊢
      rw [List.intercalate_cons_of_ne_nil (by simp),
        List.intercalate_cons_of_ne_nil (by simp [hne]), ih]

theorem marks?_append (h : opening ∉ s) :
    marks? opening closing (s ++ t) =
      (marks? opening closing t).map fun m => (s ++ m.1, m.2) := by
  obtain ⟨lead, pieces, ht, hs⟩ := splitOn_append (t := t) h
  simp only [marks?, ht, hs, Option.map_map]
  rfl

theorem marks?_cons (ho : opening ∉ inner) (hc : closing ∉ inner) (hne : opening ≠ closing) :
    marks? opening closing (opening :: (inner ++ closing :: t)) =
      (marks? opening closing t).map fun m => ([], (inner, m.1) :: m.2) := by
  have hmark : opening ∉ inner ++ [closing] := by simp [ho, hne]
  obtain ⟨lead, pieces, ht, hs⟩ := splitOn_append (t := t) hmark
  have hcut : cut? closing (inner ++ [closing] ++ lead) = some (inner, lead) := by
    rw [List.append_assoc, List.singleton_append, cut?_append hc]
  have htext : inner ++ closing :: t = (inner ++ [closing]) ++ t := by simp
  rw [marks?, splitOn, if_pos rfl, htext, hs]
  simp only [marks?, ht, List.mapM_cons, hcut]
  cases pieces.mapM (cut? closing) <;> rfl

end PioSyntax.Text

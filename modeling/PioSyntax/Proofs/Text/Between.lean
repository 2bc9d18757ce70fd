import PioSyntax.Token

namespace PioSyntax

namespace Text

def IsAt (source : Text) (start : Nat) (text : Text) : Prop :=
  ∃ pre post, source = pre ++ (text ++ post) ∧ start = pre.length

variable {source s t : Text} {a b c d : Nat}

theorem length_between (hb : b ≤ source.length) : (source.between a b).length = b - a := by
  rw [between, List.length_take, List.length_drop]
  omega

@[simp] theorem between_self : source.between a a = [] := by simp [between]

theorem between_full : source.between 0 source.length = source := by simp [between]

theorem between_eq_append (hab : a ≤ b) (hbc : b ≤ c) :
    source.between a c = source.between a b ++ source.between b c := by
  rw [between, between, between, show c - a = (b - a) + (c - b) by omega, List.take_add,
    List.drop_drop, Nat.add_sub_cancel' hab]

theorem between_between (h : a + d ≤ b) :
    (source.between a b).between c d = source.between (a + c) (a + d) := by
  rw [between, between, between, List.drop_take, List.take_take, List.drop_drop]
  congr 1
  omega

theorem between_append_right : (s ++ t).between (s.length + a) (s.length + b) = t.between a b := by
  rw [between, between, List.drop_length_add_append, Nat.add_sub_add_left]

theorem between_append_left (hb : b ≤ s.length) : (s ++ t).between a b = s.between a b := by
  rw [between, between, List.drop_append, List.take_append_of_le_length]
  rw [List.length_drop]
  omega

theorem between_append (ha : a ≤ s.length) :
    (s ++ t).between a (s.length + b) = s.between a s.length ++ t.between 0 b := by
  have hleft : (s ++ t).between a s.length = s.between a s.length :=
    between_append_left (Nat.le_refl _)
  have hright : (s ++ t).between s.length (s.length + b) = t.between 0 b := by
    simpa using between_append_right (a := 0)
  rw [between_eq_append ha (Nat.le_add_right _ _), hleft, hright]

theorem between_middle {u : Text} : (s ++ (t ++ u)).between s.length (s.length + t.length) = t := by
  rw [between_append (Nat.le_refl _), between_self, List.nil_append,
    between_append_left (Nat.le_refl _), between_full]

theorem mem_between_iff {e : Char} : e ∈ source.between a b ↔
    ∃ i, a ≤ i ∧ i < b ∧ source[i]? = some e := by
  simp only [between, List.mem_iff_getElem?, List.getElem?_take, List.getElem?_drop]
  constructor
  · rintro ⟨i, h⟩
    split at h
    · exact ⟨a + i, by omega, by omega, h⟩
    · cases h
  · rintro ⟨i, ha, hb, h⟩
    refine ⟨i - a, ?_⟩
    rw [if_pos (by omega), Nat.add_sub_cancel' ha, h]

theorem mem_between {e : Char} (ha : a ≤ s.length) (hb : s.length < b) :
    e ∈ (s ++ e :: t).between a b :=
  mem_between_iff.mpr ⟨s.length, ha, hb, by simp⟩

theorem between_zero (source : Text) (a : Nat) : source.between 0 a = source.take a := rfl

theorem take_append_between (hab : a ≤ b) :
    source.take a ++ source.between a b = source.take b := by
  rw [← between_zero, ← between_zero, ← between_eq_append (Nat.zero_le a) hab]

theorem isAt_self (source : Text) : IsAt source 0 source := ⟨[], [], by simp, rfl⟩

theorem isAt_between (h : a ≤ source.length) :
    IsAt source a (source.between a b) := by
  refine ⟨source.take a, (source.drop a).drop (b - a), ?_, ?_⟩
  · rw [between, List.take_append_drop, List.take_append_drop]
  · rw [List.length_take, Nat.min_eq_left h]

theorem IsAt.right (h : IsAt source a (s ++ t)) : IsAt source (a + s.length) t := by
  obtain ⟨pre, post, rfl, rfl⟩ := h
  exact ⟨pre ++ s, post, by simp, by simp⟩

theorem IsAt.tail {e : Char} (h : IsAt source a (e :: t)) : IsAt source (a + 1) t :=
  h.right (s := [e])

theorem IsAt.left (h : IsAt source a (s ++ t)) : IsAt source a s := by
  obtain ⟨pre, post, rfl, rfl⟩ := h
  exact ⟨pre, t ++ post, by simp, rfl⟩

theorem IsAt.getElem?_eq {e : Char} (h : IsAt source a (e :: t)) : source[a]? = some e := by
  obtain ⟨pre, post, rfl, rfl⟩ := h
  simp

theorem IsAt.subset (h : IsAt source a t) : t ⊆ source := by
  obtain ⟨pre, post, rfl, -⟩ := h
  intro c hc
  exact List.mem_append_right _ (List.mem_append_left _ hc)

theorem IsAt.le (h : IsAt source a t) : a + t.length ≤ source.length := by
  obtain ⟨pre, post, rfl, rfl⟩ := h
  simp only [List.length_append]
  omega

theorem isAt_iff : IsAt source a t ↔
    a + t.length ≤ source.length ∧ source.between a (a + t.length) = t := by
  constructor
  · intro h
    obtain ⟨pre, post, rfl, rfl⟩ := id h
    exact ⟨h.le, between_middle⟩
  · rintro ⟨hle, ht⟩
    rw [← ht]
    exact isAt_between (Nat.le_trans (Nat.le_add_right _ _) hle)

theorem IsAt.eq_append (h : IsAt source a t) :
    source = source.take a ++ (t ++ source.drop (a + t.length)) := by
  have ht := (isAt_iff.mp h).2
  conv => lhs; rw [← List.take_append_drop a source, ← List.take_append_drop t.length (source.drop a)]
  rw [between, Nat.add_sub_cancel_left] at ht
  rw [ht, List.drop_drop]

theorem IsAt.mem {e : Char} {n : Nat} (h : IsAt source a t) (ha : a ≤ n) (hn : n < a + t.length)
    (he : source[n]? = some e) : e ∈ t := by
  rw [← (isAt_iff.mp h).2]
  exact mem_between_iff.mpr ⟨n, ha, hn, he⟩

/-- What stands in a part of a source stands in the part as it does in the source. -/
theorem IsAt.isAt_iff {n : Nat} {u : Text} (h : IsAt source a t) (hn : n + u.length ≤ t.length) :
    IsAt source (a + n) u ↔ IsAt t n u := by
  have hle := h.le
  rw [Text.isAt_iff] at h
  have hbetween : t.between n (n + u.length) = source.between (a + n) (a + n + u.length) := by
    have hsource : (source.between a (a + t.length)).between n (n + u.length) =
        source.between (a + n) (a + (n + u.length)) := between_between (by omega)
    rwa [h.2, ← Nat.add_assoc] at hsource
  rw [Text.isAt_iff, Text.isAt_iff, hbetween]
  exact and_congr_left fun _ => iff_of_true (by omega) hn

theorem infix_iff_exists_isAt {u : Text} : u <:+: t ↔ ∃ n, IsAt t n u := by
  constructor
  · rintro ⟨pre, post, rfl⟩
    exact ⟨pre.length, pre, post, List.append_assoc _ _ _, rfl⟩
  · rintro ⟨n, pre, post, rfl, -⟩
    exact ⟨pre, post, List.append_assoc _ _ _⟩

theorem IsAt.infix_iff {u : Text} (h : IsAt source a t) : u <:+: t ↔
    ∃ i, a ≤ i ∧ i + u.length ≤ a + t.length ∧ IsAt source i u := by
  rw [infix_iff_exists_isAt]
  constructor
  · rintro ⟨n, hn⟩
    have hle := hn.le
    exact ⟨a + n, by omega, by omega, (h.isAt_iff hle).mpr hn⟩
  · rintro ⟨i, hi, hle, hu⟩
    obtain ⟨n, rfl⟩ := Nat.exists_eq_add_of_le hi
    exact ⟨n, (h.isAt_iff (by omega)).mp hu⟩

theorem IsAt.take (h : IsAt source a (s ++ t)) :
    source.take (a + s.length) = source.take a ++ s := by
  obtain ⟨pre, post, rfl, rfl⟩ := h
  rw [List.take_left, List.append_assoc, ← List.append_assoc pre s, ← List.length_append,
    List.take_left]

end Text

end PioSyntax

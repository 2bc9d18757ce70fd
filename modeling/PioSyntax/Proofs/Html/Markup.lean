import PioSyntax.Proofs.Html.Reference

namespace PioSyntax.Html

open Text

/-- A text cut at its tags: what stands before the first of them, and what is in each tag with what
stands between it and the next. Every angle bracket has to belong to a tag. -/
def markup? (text : Text) : Option (Text × List (Text × Text)) :=
  (marks? '<' '>' text).filter fun (lead, tags) =>
    !lead.contains '>' && tags.all fun (_, after) => !after.contains '>'

def Referenced (text : Text) : Prop :=
  ∀ before after, text = before ++ '&' :: after →
    ∃ name rest, after = name ++ ';' :: rest ∧ (reference? Char.ofNat name).isSome = true

/-- A text without markup: ASCII without angle brackets, in which ampersands are for references. -/
structure IsInert (text : Text) : Prop where
  ascii : ∀ c ∈ text, c.toNat < 0x80
  no_opening : '<' ∉ text
  no_closing : '>' ∉ text
  referenced : Referenced text

/-- A text made of tags and of texts without markup, and how it is cut. -/
inductive Page : Text → Text × List (Text × Text) → Prop
  | nil : Page [] ([], [])
  | text {s t : Text} {m : Text × List (Text × Text)} (h : IsInert s) (rest : Page t m) :
      Page (s ++ t) (s ++ m.1, m.2)
  | tag {tag t : Text} {m : Text × List (Text × Text)} (h : IsInert tag) (rest : Page t m) :
      Page ('<' :: (tag ++ '>' :: t)) ([], (tag, m.1) :: m.2)

variable {s t text : Text} {c : Char} {m : Text × List (Text × Text)} {f : Char → Text}

theorem referenced_of_not_mem (h : '&' ∉ s) : Referenced s := by
  rintro before after rfl
  exact absurd (by simp) h

theorem Referenced.append (hs : Referenced s) (ht : Referenced t) : Referenced (s ++ t) := by
  intro before after h
  rcases List.append_eq_append_iff.mp h with ⟨w, rfl, hw⟩ | ⟨w, rfl, hw⟩
  · exact ht w after hw
  · cases w with
    | nil => exact ht [] after hw.symm
    | cons d w =>
        obtain ⟨rfl, rfl⟩ := List.cons.inj hw
        obtain ⟨name, rest, rfl, hr⟩ := hs before w rfl
        exact ⟨name, rest ++ t, by simp, hr⟩

theorem isInert_nil : IsInert [] := ⟨by simp, by simp, by simp, referenced_of_not_mem (by simp)⟩

theorem IsInert.append (hs : IsInert s) (ht : IsInert t) : IsInert (s ++ t) where
  ascii c hc := (List.mem_append.mp hc).elim (hs.ascii c) (ht.ascii c)
  no_opening h := (List.mem_append.mp h).elim hs.no_opening ht.no_opening
  no_closing h := (List.mem_append.mp h).elim hs.no_closing ht.no_closing
  referenced := hs.referenced.append ht.referenced

theorem isInert_flatMap {α : Type} {f : α → Text} {l : List α} (h : ∀ a ∈ l, IsInert (f a)) :
    IsInert (l.flatMap f) := by
  induction l with
  | nil => exact isInert_nil
  | cons a l ih =>
      rw [List.forall_mem_cons] at h
      exact h.1.append (ih h.2)

theorem isInert_of_isBare (h : ∀ c ∈ s, isBare c = true) : IsInert s where
  ascii c hc := (isBare_iff.mp (h c hc)).1
  no_opening hm := absurd (h _ hm) (by decide)
  no_closing hm := absurd (h _ hm) (by decide)
  referenced := referenced_of_not_mem fun hm => absurd (h _ hm) (by decide)

theorem isInert_literal {text : String} (h : text.toList.all isBare = true) : IsInert text.toList :=
  isInert_of_isBare (List.all_eq_true.mp h)

theorem Writes.isInert (h : Writes c text) : IsInert text := by
  cases h with
  | bare h => exact isInert_of_isBare (by simpa using h)
  | @reference name hn hr =>
      simp only [inReference, Bool.and_eq_true] at hn
      have hbare : ∀ d ∈ name ++ [';'], isBare d = true :=
        List.forall_mem_append.mpr ⟨fun d hd => (hn d hd).1.1, List.forall_mem_singleton.mpr rfl⟩
      have hrest := isInert_of_isBare hbare
      refine ⟨?_, ?_, ?_, ?_⟩
      · exact List.forall_mem_cons.mpr ⟨by decide, hrest.ascii⟩
      · simpa using hrest.no_opening
      · simpa using hrest.no_closing
      · intro before after he
        cases before with
        | nil =>
            obtain rfl := (List.cons.inj he).2
            exact ⟨name, [], rfl, by rw [hr]; rfl⟩
        | cons d before =>
            have hmem : '&' ∈ name ++ [';'] := by
              rw [(List.cons.inj he).2]
              simp
            exact absurd (hbare _ hmem) (by decide)

theorem isInert_escape (s : Text) : IsInert (escape s) :=
  isInert_flatMap fun c _ => (writes_escapeChar c).isInert

theorem isInert_escapeAttribute (s : Text) : IsInert (escapeAttribute s) := by
  rw [escapeAttribute_eq]
  exact isInert_flatMap fun c _ => (writes_attributeChar c).isInert

theorem Page.markup? (h : Page t m) : markup? t = some m := by
  induction h with
  | nil => simp [Html.markup?, marks?, splitOn]
  | @text s t m hs rest ih =>
      obtain ⟨hm, hp⟩ := Option.filter_eq_some_iff.mp ih
      refine Option.filter_eq_some_iff.mpr ⟨?_, ?_⟩
      · rw [marks?_append hs.no_opening, hm]
        rfl
      · simpa [hs.no_closing] using hp
  | @tag tag t m htag rest ih =>
      obtain ⟨hm, hp⟩ := Option.filter_eq_some_iff.mp ih
      refine Option.filter_eq_some_iff.mpr ⟨?_, ?_⟩
      · rw [marks?_cons htag.no_opening htag.no_closing (by decide), hm]
        rfl
      · simpa using hp

theorem Page.ascii (h : Page t m) : ∀ c ∈ t, c.toNat < 0x80 := by
  induction h with
  | nil => simp
  | text hs _ ih => exact List.forall_mem_append.mpr ⟨hs.ascii, ih⟩
  | tag htag _ ih =>
      simp only [List.forall_mem_cons, List.forall_mem_append]
      exact ⟨by decide, htag.ascii, by decide, ih⟩

theorem Page.referenced (h : Page t m) : Referenced t := by
  induction h with
  | nil => exact isInert_nil.referenced
  | text hs _ ih => exact hs.referenced.append ih
  | @tag tag t m htag _ ih =>
      have hopening : Referenced ['<'] := referenced_of_not_mem (by decide)
      have hclosing : Referenced ['>'] := referenced_of_not_mem (by decide)
      exact hopening.append (htag.referenced.append (hclosing.append ih))

end PioSyntax.Html

import PioSyntax.Proofs.Html.Fragment

namespace PioSyntax

open Text

theorem Style.isBare_color {color : Text} {c : Char} (h : isColor color = true) (hc : c ∈ color) :
    Html.isBare c = true := by
  obtain ⟨digits, rfl, -, hd⟩ := isColor_iff.mp h
  rcases List.mem_cons.mp hc with rfl | hc
  · rfl
  · exact forall_isHexDigit (P := fun c => Html.isBare c = true) (by decide) (hd c hc)

theorem Style.isBare_css {style : Style} {c : Char} (h : style.IsWritten) (hc : c ∈ style.css) :
    Html.isBare c = true := by
  have hseparator : ∀ c ∈ "; ".toList, Html.isBare c = true := List.all_eq_true.mp rfl
  have hcolor : ∀ c ∈ "color: ".toList, Html.isBare c = true := List.all_eq_true.mp rfl
  have hbold : ∀ c ∈ "font-weight: bold".toList, Html.isBare c = true := List.all_eq_true.mp rfl
  have hitalic : ∀ c ∈ "font-style: italic".toList, Html.isBare c = true := List.all_eq_true.mp rfl
  rcases mem_join hc with hc | ⟨piece, hp, hc⟩
  · exact hseparator c hc
  · simp only [List.mem_append, onlyIf] at hp
    rcases hp with (hp | hp) | hp
    · obtain ⟨color, hm, rfl⟩ := List.mem_map.mp hp
      have hwritten : color ∈ style.color := (Option.mem_filter_iff.mp (Option.mem_toList.mp hm)).1
      rcases List.mem_append.mp hc with hc | hc
      · exact hcolor c hc
      · exact isBare_color (h color hwritten) hc
    · split at hp
      · exact hbold c (List.mem_singleton.mp hp ▸ hc)
      · cases hp
    · split at hp
      · exact hitalic c (List.mem_singleton.mp hp ▸ hc)
      · cases hp

namespace Html

def HasTags (text : Text) (tags : List Text) : Prop :=
  ∃ m, Page text m ∧ m.2.map Prod.fst = tags

def tagged (marks : List (String × String)) : Text :=
  marks.flatMap fun m => '<' :: (m.1.toList ++ '>' :: m.2.toList)

def elementTags (blocks : List ForeignBlock) (t : Token) : List Text :=
  [openingTag t.category (languageOf blocks t), "/span"]

/-- The tags of a document: those of the page, and in the preformatted element two for each token of
the classification. -/
def pageTags (c : Classification) : List Text :=
  ([ "!DOCTYPE html", "html", "head", "meta charset=\"utf-8\"", "title", "/title", "style",
      "/style", "/head", "body", "pre class=\"pio\"" ] : List Text) ++
    c.tokens.flatMap (elementTags c.blocks) ++ (["/pre", "/body", "/html"] : List Text)

variable {s t : Text} {a b : List Text} {styles : StyleTable}
variable {overrides : List StyleTable.Override} {path : Option Path}

theorem hasTags_of_isInert (h : IsInert s) : HasTags s [] := by
  have hpage := Page.text h .nil
  rw [List.append_nil] at hpage
  exact ⟨_, hpage, rfl⟩

theorem HasTags.append (hs : HasTags s a) (ht : HasTags t b) : HasTags (s ++ t) (a ++ b) := by
  obtain ⟨m, hs, rfl⟩ := hs
  induction hs with
  | nil => exact ht
  | text h _ ih =>
      obtain ⟨m, hpage, htags⟩ := ih
      rw [List.append_assoc]
      exact ⟨_, .text h hpage, htags⟩
  | tag h _ ih =>
      obtain ⟨m, hpage, htags⟩ := ih
      rw [List.cons_append, List.append_assoc, List.cons_append]
      exact ⟨_, .tag h hpage, congrArg (_ :: ·) htags⟩

theorem hasTags_flatMap {α : Type} {f : α → Text} {g : α → List Text} {l : List α}
    (h : ∀ x ∈ l, HasTags (f x) (g x)) : HasTags (l.flatMap f) (l.flatMap g) := by
  induction l with
  | nil => exact hasTags_of_isInert isInert_nil
  | cons x l ih =>
      rw [List.forall_mem_cons] at h
      exact h.1.append (ih h.2)

theorem hasTags_tagged (marks : List (String × String))
    (h : marks.all (fun m => m.1.toList.all isBare && m.2.toList.all isBare) = true) :
    HasTags (tagged marks) (marks.map fun m => m.1.toList) := by
  rw [List.all_eq_true] at h
  rw [List.map_eq_flatMap]
  apply hasTags_flatMap
  intro m hm
  obtain ⟨htag, hafter⟩ := Bool.and_eq_true_iff.mp (h m hm)
  have hpage := Page.tag (isInert_literal htag) (.text (isInert_literal hafter) .nil)
  rw [List.append_nil] at hpage
  exact ⟨_, hpage, rfl⟩

theorem map_fst_contentCut (blocks : List ForeignBlock) (tokens : List Token) :
    (contentCut blocks tokens).2.map Prod.fst =
      (tokens.filter (·.category ≠ .plain)).flatMap (elementTags blocks) ++ ["/pre".toList] := by
  induction tokens with
  | nil => rfl
  | cons u tokens ih =>
      rw [contentCut, List.foldr_cons, ← contentCut, tokenCut, List.filter_cons]
      by_cases hp : u.category = .plain
      · rw [if_pos hp, if_neg (by simpa using hp)]
        exact ih
      · rw [if_neg hp, if_pos (by simpa using hp), List.flatMap_cons, List.append_assoc, ← ih]
        rfl

theorem hasTags_fragment (c : Classification) (h : ∀ u ∈ c.tokens, u.category ≠ .plain) :
    HasTags (fragment c)
      ("pre class=\"pio\"".toList ::
        (c.tokens.flatMap (elementTags c.blocks) ++ ["/pre".toList])) := by
  refine ⟨_, page_fragment c, ?_⟩
  rw [List.map_cons, map_fst_contentCut, Classification.withPlain,
    Classification.filter_fillGaps h]

theorem isInert_stylesheet (h : ∀ c, (styles c).IsWritten) : IsInert (stylesheet styles) := by
  apply isInert_flatMap
  intro c _
  dsimp only
  split
  · exact isInert_nil
  · have hpoint : IsInert ".".toList := isInert_literal rfl
    have hopening : IsInert " \x7b ".toList := isInert_literal rfl
    have hclosing : IsInert " \x7d\n".toList := isInert_literal rfl
    have hcss : IsInert (styles c).css := isInert_of_isBare fun _ => Style.isBare_css (h c)
    exact (((hpoint.append (isInert_cssClass c)).append hopening).append hcss).append hclosing

theorem hasTags_document (title : Text) (hs : ∀ c, (styles c).IsWritten) (c : Classification)
    (h : ∀ u ∈ c.tokens, u.category ≠ .plain) :
    HasTags (document c styles title) (pageTags c) := by
  have hhead := hasTags_tagged [("!DOCTYPE html", "\n"), ("html", "\n"), ("head", "\n"),
    ("meta charset=\"utf-8\"", "\n"), ("title", "")] rfl
  have htitle := (hhead.append (hasTags_of_isInert (isInert_escape title))).append
    (hasTags_tagged [("/title", "\n"), ("style", "\n")] rfl)
  have hstyle := (htitle.append (hasTags_of_isInert (isInert_stylesheet hs))).append
    (hasTags_tagged [("/style", "\n"), ("/head", "\n"), ("body", "\n")] rfl)
  have hbreak : IsInert "\n".toList := isInert_literal rfl
  have hend := (hasTags_of_isInert hbreak).append
    (hasTags_tagged [("/body", "\n"), ("/html", "\n")] rfl)
  have hall : HasTags (document c styles title) _ :=
    (hstyle.append (hasTags_fragment c h)).append hend
  unfold pageTags
  simpa only [List.map_cons, List.map_nil, List.append_assoc, List.cons_append, List.nil_append,
    List.append_nil] using hall

/-- Whatever the source, the title and the overrides say, a document is ASCII, its angle brackets
are those of its own tags, and its ampersands are for references. -/
theorem document_markup (hs : StyleTable.resolve overrides path = .ok styles)
    (source title : Text) :
    (∀ c ∈ document (classify source) styles title, c.toNat < 0x80) ∧
    (∃ lead marks, markup? (document (classify source) styles title) = some (lead, marks) ∧
      marks.map Prod.fst = pageTags (classify source)) ∧
    Referenced (document (classify source) styles title) := by
  obtain ⟨m, hpage, htags⟩ := hasTags_document title (StyleTable.isWritten_resolve hs)
    (classify source) fun u hu => Classification.category_ne_plain (by decide) hu
  exact ⟨hpage.ascii, ⟨m.1, m.2, hpage.markup?, htags⟩, hpage.referenced⟩

theorem document_markup_color :
    StyleTable.resolve [⟨"label", some "#FF0000"⟩] none =
      .ok (StyleTable.default.set .label ⟨some "#ff0000", false, false⟩) ∧
    ∃ lead marks, markup? (document (classify "a:<b>")
        (StyleTable.default.set .label ⟨some "#ff0000", false, false⟩) "</title>") =
          some (lead, marks) ∧
      marks.map Prod.fst = pageTags (classify "a:<b>") := by
  have hs : StyleTable.resolve [⟨"label", some "#FF0000"⟩] none =
      .ok (StyleTable.default.set .label ⟨some "#ff0000", false, false⟩) := rfl
  exact ⟨hs, (document_markup hs "a:<b>" "</title>").2.1⟩

end Html

end PioSyntax

import PioSyntax.Proofs.Classification.Tiling
import PioSyntax.Proofs.Html.Markup

namespace PioSyntax.Html

open Text

structure Piece where
  category : Category
  language : Option Text
  text : Text
deriving DecidableEq

def categoryOfClass? (name : Text) : Option Category := Category.all.find? (cssClass · = name)

def language? (rest : Text) : Option (Option Text) :=
  if rest = [] then some none
  else do
    let (language, rest) ← cut? '"' (← after? " data-language=\"" rest)
    if rest = [] then return some (← unescape? Char.ofNat language) else none

def element? (tag : Text) : Option (Category × Option Text) := do
  let (name, rest) ← cut? '"' (← after? "span class=\"" tag)
  return (← categoryOfClass? name, ← language? rest)

def plain? (raw : Text) : Option (List Piece) :=
  (unescape? Char.ofNat raw).map fun text => if text = [] then [] else [⟨.plain, none, text⟩]

def elements? : List (Text × Text) → Option (List Piece)
  | [] => none
  | [(tag, after)] => if tag = ("/pre" : Text) ∧ after = [] then some [] else none
  | (opening, raw) :: (closing, after) :: rest => do
    let (category, language) ← element? opening
    let text ← unescape? Char.ofNat raw
    let plain ← plain? after
    let later ← elements? rest
    if closing = ("/span" : Text) then return ⟨category, language, text⟩ :: (plain ++ later)
    else none

def content? (m : Text × List (Text × Text)) : Option (List Piece) := do
  return (← plain? m.1) ++ (← elements? m.2)

def read? (html : Text) : Option (List Piece) := do
  match ← markup? html with
  | ([], (tag, lead) :: tags) =>
    if tag = ("pre class=\"pio\"" : Text) then content? (lead, tags) else none
  | _ => none

structure Piece.Shows (blocks : List ForeignBlock) (p : Piece) (t : Token) : Prop where
  category : p.category = t.category
  text : p.text = t.text
  foreign : t.category = .foreignBlock → ∃ b ∈ blocks, b.body = t.span ∧ p.language = some b.language
  other : t.category ≠ .foreignBlock → p.language = none

def languageAttribute (language : Text) : Text :=
  " data-language=\"" ++ escapeAttribute language ++ "\""

def openingTag (category : Category) (language : Option Text) : Text :=
  "span class=\"" ++ cssClass category ++ "\"" ++ language.elim [] languageAttribute

def languageOf (blocks : List ForeignBlock) (t : Token) : Option Text :=
  if t.category = .foreignBlock then some (languageAt blocks t.span.start) else none

def piece (blocks : List ForeignBlock) (t : Token) : Piece :=
  ⟨t.category, languageOf blocks t, t.text⟩

def tokenCut (blocks : List ForeignBlock) (t : Token) (m : Text × List (Text × Text)) :
    Text × List (Text × Text) :=
  if t.category = .plain then (escape t.text ++ m.1, m.2)
  else ([], (openingTag t.category (languageOf blocks t), escape t.text) :: ("/span", m.1) :: m.2)

def contentCut (blocks : List ForeignBlock) (tokens : List Token) : Text × List (Text × Text) :=
  tokens.foldr (tokenCut blocks) ([], [("/pre", [])])

variable {blocks : List ForeignBlock} {t : Token} {tokens : List Token} {s source : Text}
variable {m : Text × List (Text × Text)}

theorem token_of_plain (h : t.category = .plain) : token blocks t = escape t.text := by
  rw [token, h]

theorem token_of_ne (h : t.category ≠ .plain) : token blocks t =
    '<' :: (openingTag t.category (languageOf blocks t) ++
      '>' :: (escape t.text ++ '<' :: ("/span".toList ++ ['>']))) := by
  have hopening : "<span class=\"".toList = '<' :: "span class=\"".toList := rfl
  have hattribute : "\" data-language=\"".toList = "\"".toList ++ " data-language=\"".toList := rfl
  have hend : "\">".toList = "\"".toList ++ ['>'] := rfl
  have hclosing : "</span>".toList = '<' :: ("/span".toList ++ ['>']) := rfl
  unfold token openingTag languageOf
  split
  · next hp => exact absurd hp h
  · next hf =>
      unfold languageAttribute
      simp only [hf, if_true, Option.elim_some, hopening, hattribute, hend, hclosing,
        List.append_assoc, List.cons_append, List.nil_append]
  · next hf =>
      simp only [if_neg hf, Option.elim_none, hopening, hend, hclosing, List.append_assoc,
        List.cons_append, List.nil_append]

theorem isInert_cssClass (c : Category) : IsInert (cssClass c) := by
  apply isInert_of_isBare
  cases c <;> exact List.all_eq_true.mp rfl

theorem isInert_openingTag (category : Category) (language : Option Text) :
    IsInert (openingTag category language) := by
  have hopening : IsInert "span class=\"".toList := isInert_literal rfl
  have hattribute : IsInert " data-language=\"".toList := isInert_literal rfl
  have hquote : IsInert "\"".toList := isInert_literal rfl
  refine ((hopening.append (isInert_cssClass category)).append hquote).append ?_
  cases language with
  | none => exact isInert_nil
  | some l => exact (hattribute.append (isInert_escapeAttribute l)).append hquote

theorem categoryOfClass?_cssClass (c : Category) : categoryOfClass? (cssClass c) = some c := by
  cases c <;> decide

theorem language?_elim (language : Option Text) :
    language? (language.elim [] languageAttribute) = some language := by
  cases language with
  | none => rfl
  | some l =>
      have hattribute : languageAttribute l =
          " data-language=\"".toList ++ (escapeAttribute l ++ '"' :: []) := by
        unfold languageAttribute
        exact List.append_assoc _ _ _
      have hne : languageAttribute l ≠ [] := by
        rw [hattribute]
        exact List.cons_ne_nil _ _
      have hafter : after? " data-language=\"".toList (languageAttribute l) =
          some (escapeAttribute l ++ '"' :: []) := Pattern.after?_iff.mpr hattribute
      rw [Option.elim_some, language?, if_neg hne]
      simp only [hafter, Option.bind_eq_bind, Option.bind_some, if_true, Option.pure_def,
        cut?_append quote_not_mem_escapeAttribute, unescape?_escapeAttribute]

theorem element?_openingTag (category : Category) (language : Option Text) :
    element? (openingTag category language) = some (category, language) := by
  have hquote : '"' ∉ cssClass category := by cases category <;> decide
  have htag : openingTag category language = "span class=\"".toList ++
      (cssClass category ++ '"' :: language.elim [] languageAttribute) := by
    unfold openingTag
    simp only [List.append_assoc]
    rfl
  unfold element?
  simp only [Pattern.after?_iff.mpr htag, Option.bind_eq_bind, Option.bind_some, Option.pure_def,
    cut?_append hquote, categoryOfClass?_cssClass, language?_elim]

theorem page_token (blocks : List ForeignBlock) (t : Token) (h : Page s m) :
    Page (token blocks t ++ s) (tokenCut blocks t m) := by
  unfold tokenCut
  split
  · next hp =>
      rw [token_of_plain hp]
      exact .text (isInert_escape _) h
  · next hp =>
      have hclosing : IsInert "/span".toList := isInert_literal rfl
      have hpage := Page.tag (isInert_openingTag t.category (languageOf blocks t))
        (.text (isInert_escape t.text) (.tag hclosing h))
      rw [token_of_ne hp]
      simpa only [List.append_assoc, List.cons_append, List.nil_append, List.append_nil] using hpage

theorem page_tokens (blocks : List ForeignBlock) (tokens : List Token) (h : Page s m) :
    Page (tokens.flatMap (token blocks) ++ s) (tokens.foldr (tokenCut blocks) m) := by
  induction tokens with
  | nil => exact h
  | cons t tokens ih =>
      rw [List.flatMap_cons, List.append_assoc]
      exact page_token blocks t ih

theorem page_fragment (c : Classification) : Page (fragment c)
    ([], ("pre class=\"pio\"".toList, (contentCut c.blocks c.withPlain).1) ::
      (contentCut c.blocks c.withPlain).2) := by
  have hopening : IsInert "pre class=\"pio\"".toList := isInert_literal rfl
  have hclosing : IsInert "/pre".toList := isInert_literal rfl
  have hpage := Page.tag hopening (page_tokens c.blocks c.withPlain (.tag hclosing .nil))
  have hstart : "<pre class=\"pio\">".toList = '<' :: ("pre class=\"pio\"".toList ++ ['>']) := rfl
  have hend : "</pre>".toList = '<' :: ("/pre".toList ++ ['>']) := rfl
  unfold fragment contentCut
  simpa only [hstart, hend, List.append_assoc, List.cons_append, List.nil_append] using hpage

/-- What stands before the first tag belongs to plain tokens. -/
theorem contentCut_lead (h : ∀ t ∈ tokens.head?, t.category ≠ .plain) :
    (contentCut blocks tokens).1 = [] := by
  cases tokens with
  | nil => rfl
  | cons t tokens => rw [contentCut, List.foldr_cons, tokenCut, if_neg (h t rfl)]

theorem content?_eq_some {pieces : List Piece} : content? m = some pieces ↔
    ∃ plain later, plain? m.1 = some plain ∧ elements? m.2 = some later ∧
      plain ++ later = pieces := by
  simp [content?, Option.bind_eq_some_iff]

/-- Reading gives back the tokens: a plain one is the only one between two tags, and shows in the
text there as it is not empty. -/
theorem content?_contentCut
    (hchain : tokens.IsChain fun t u => ¬ (t.category = .plain ∧ u.category = .plain))
    (hne : ∀ t ∈ tokens, t.text ≠ []) :
    content? (contentCut blocks tokens) = some (tokens.map (piece blocks)) := by
  induction tokens with
  | nil => rfl
  | cons t tokens ih =>
      rw [List.isChain_cons] at hchain
      rw [List.forall_mem_cons] at hne
      obtain ⟨plain, later, hplain, hlater, hpieces⟩ := content?_eq_some.mp (ih hchain.2 hne.2)
      rw [contentCut, List.foldr_cons, ← contentCut, tokenCut, List.map_cons, ← hpieces,
        content?_eq_some]
      split
      · next hp =>
          have hlead : (contentCut blocks tokens).1 = [] :=
            contentCut_lead fun u hu hup => hchain.1 u hu ⟨hp, hup⟩
          have hnone : plain = [] := by
            rw [hlead, plain?, unescape?_nil] at hplain
            exact (Option.some.inj hplain).symm
          refine ⟨[piece blocks t], later, ?_, hlater, by rw [hnone]; rfl⟩
          have hlanguage : languageOf blocks t = none := if_neg (by simp [hp])
          rw [hlead, List.append_nil, plain?, unescape?_escape, map_reread, Option.map_some,
            if_neg hne.1, piece, hp, hlanguage]
      · next hp =>
          refine ⟨[], piece blocks t :: (plain ++ later), rfl, ?_, rfl⟩
          rw [elements?]
          simp only [element?_openingTag, unescape?_escape, map_reread, hplain, hlater,
            Option.bind_eq_bind, Option.bind_some, if_true, Option.pure_def, piece]

theorem read?_fragment_classify (source : Text) : read? (fragment (classify source)) =
    some ((classify source).withPlain.map (piece (classify source).blocks)) := by
  rw [read?, (page_fragment (classify source)).markup?]
  exact content?_contentCut
    (Classification.fillGaps_isChain fun t ht => Classification.category_ne_plain (by decide) ht)
    fun t ht => (Classification.tiled_classify source).text_ne_nil ht

theorem languageAt_body {b : ForeignBlock} (h : b ∈ ForeignBlock.find source) :
    languageAt (ForeignBlock.find source) b.body.start = b.language := by
  cases hf : (ForeignBlock.find source).reverse.find? (·.body.start = b.body.start) with
  | none => exact absurd (decide_eq_true rfl) (List.find?_eq_none.mp hf b (List.mem_reverse.mpr h))
  | some b' =>
      have hb : b' ∈ ForeignBlock.find source := List.mem_reverse.mp (List.mem_of_find?_eq_some hf)
      have hstart : b'.body.start = b.body.start := by simpa using List.find?_some hf
      rw [languageAt, hf, (ForeignBlock.placed_find source).eq_of_body_start hb h hstart]
      rfl

theorem exists_body (ht : t ∈ (classify source).tokens) (hc : t.category = .foreignBlock) :
    ∃ b ∈ ForeignBlock.find source, b.body = t.span := by
  rcases Classification.mem_tokens ht with ht | ⟨r, hr, ht⟩
  · obtain ⟨b, hb, ht⟩ := List.mem_flatMap.mp ht
    rw [ForeignBlock.tokens_eq, List.mem_append, List.mem_append] at ht
    rcases ht with ht | ht | ht
    · obtain ⟨-, rfl⟩ := ForeignBlock.mem_spanToken.mp ht
      cases hc
    · obtain ⟨-, rfl⟩ := ForeignBlock.mem_spanToken.mp ht
      exact ⟨b, hb, rfl⟩
    · cases htail : b.tail with
      | none =>
          rw [htail] at ht
          cases ht
      | some tail =>
          rw [htail] at ht
          obtain ⟨-, rfl⟩ := ForeignBlock.mem_spanToken.mp ht
          cases hc
  · have hrules : ∀ r ∈ defaultRules, r.category ≠ .foreignBlock := by decide
    exact absurd ((Classification.mem_proposals ht).1.symm.trans hc) (hrules r hr)

theorem piece_shows (ht : t ∈ (classify source).withPlain) :
    (piece (classify source).blocks t).Shows (classify source).blocks t where
  category := rfl
  text := rfl
  foreign hc := by
    rcases (Classification.tiled_classify source).gaps t ht with ht | hp
    · obtain ⟨b, hb, hbody⟩ := exists_body ht hc
      refine ⟨b, hb, hbody, ?_⟩
      have hlanguage := languageAt_body hb
      rw [hbody] at hlanguage
      rw [piece, languageOf, if_pos hc]
      exact congrArg some hlanguage
    · cases hp.symm.trans hc
  other hc := if_neg hc

/-- The fragment of a source can be read back: its pieces are the tokens and the gaps between them,
their texts make up the source, and so no two sources have the same fragment. -/
theorem read?_fragment :
    (∀ source, ∃ pieces, read? (fragment (classify source)) = some pieces ∧
      List.Forall₂ (Piece.Shows (classify source).blocks) pieces (classify source).withPlain ∧
      pieces.flatMap Piece.text = source) ∧
    Function.Injective fun source => fragment (classify source) := by
  have hread : ∀ source, ∃ pieces, read? (fragment (classify source)) = some pieces ∧
      List.Forall₂ (Piece.Shows (classify source).blocks) pieces (classify source).withPlain ∧
      pieces.flatMap Piece.text = source := by
    intro source
    refine ⟨_, read?_fragment_classify source, ?_, ?_⟩
    · rw [List.forall₂_map_left_iff, List.forall₂_same]
      exact fun t ht => piece_shows ht
    · rw [List.flatMap_map]
      exact (Classification.tiled_classify source).concat
  refine ⟨hread, fun source source' h => ?_⟩
  obtain ⟨pieces, hp, -, htext⟩ := hread source
  obtain ⟨pieces', hp', -, htext'⟩ := hread source'
  have hsame : fragment (classify source) = fragment (classify source') := h
  rw [hsame, hp'] at hp
  rw [← htext, ← htext', Option.some.inj hp]

end PioSyntax.Html

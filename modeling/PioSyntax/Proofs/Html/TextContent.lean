import PioSyntax.Proofs.Classification.LineBreak
import PioSyntax.Proofs.Html.Fragment

namespace PioSyntax.Html

open Text

/-- Numbers whose references stand for other characters than these have: where the code page
windows-1252 has a character in place of a control code. -/
def remapped : List (Nat × Char) :=
  [ (0x80, '\u20AC'), (0x82, '\u201A'), (0x83, '\u0192'), (0x84, '\u201E'), (0x85, '\u2026'),
    (0x86, '\u2020'), (0x87, '\u2021'), (0x88, '\u02C6'), (0x89, '\u2030'), (0x8A, '\u0160'),
    (0x8B, '\u2039'), (0x8C, '\u0152'), (0x8E, '\u017D'), (0x91, '\u2018'), (0x92, '\u2019'),
    (0x93, '\u201C'), (0x94, '\u201D'), (0x95, '\u2022'), (0x96, '\u2013'), (0x97, '\u2014'),
    (0x98, '\u02DC'), (0x99, '\u2122'), (0x9A, '\u0161'), (0x9B, '\u203A'), (0x9C, '\u0153'),
    (0x9E, '\u017E'), (0x9F, '\u0178') ]

def browserChar (n : Nat) : Char := (remapped.lookup n).getD (Char.ofNat n)

def dropLineFeed : Text → Text
  | '\n' :: text => text
  | text => text

def textOf? : List (Text × Text) → Option Text
  | [] => none
  | (tag, raw) :: tags =>
    if tag = ("/pre" : Text) then some []
    else do return (← unescape? browserChar raw) ++ (← textOf? tags)

/-- The text content that a browser gives to a preformatted element of tab stops, line feeds and
characters from the space on. Tags contribute nothing, and a line feed right after the first of them
is ignored. -/
def textContent? (html : Text) : Option Text := do
  match ← markup? html with
  | ([], (tag, lead) :: tags) =>
    if tag = ("pre class=\"pio\"" : Text) then
      return (← unescape? browserChar (dropLineFeed lead)) ++ (← textOf? tags)
    else none
  | _ => none

variable {s rest source : Text} {c : Char} {t : Token} {tokens : List Token} {blocks : List ForeignBlock}

theorem dropLineFeed_of_head? (h : s.head? ≠ some '\n') : dropLineFeed s = s := by
  cases s with
  | nil => rfl
  | cons c s =>
      unfold dropLineFeed
      split
      · next he => exact absurd (by rw [he]; rfl) h
      · rfl

theorem dropLineFeed_append (h : s = [] → rest.head? ≠ some '\n') :
    dropLineFeed (s ++ rest) = dropLineFeed s ++ rest := by
  cases s with
  | nil => exact dropLineFeed_of_head? (h rfl)
  | cons c s =>
      by_cases hc : c = '\n'
      · rw [hc]
        rfl
      · rw [dropLineFeed_of_head? (by simpa using hc), dropLineFeed_of_head? (by simpa using hc)]

theorem Writes.head? (h : Writes c s) (hc : c ≠ '\n') : (s ++ rest).head? ≠ some '\n' := by
  cases h with
  | bare => simpa using hc
  | reference => simp

theorem dropLineFeed_escape (s : Text) : dropLineFeed (escape s) = escape (dropLineFeed s) := by
  cases s with
  | nil => rfl
  | cons c s =>
      by_cases hc : c = '\n'
      · rw [hc]
        rfl
      · rw [dropLineFeed_of_head? (s := c :: s) (by simpa using hc), escape, List.flatMap_cons,
          dropLineFeed_of_head? ((writes_escapeChar c).head? hc)]

theorem exists_contentCut (blocks : List ForeignBlock) (tokens : List Token) :
    ∃ lead later, (contentCut blocks tokens).1 = escape lead ∧
      textOf? (contentCut blocks tokens).2 = some (later.map (reread browserChar)) ∧
      lead ++ later = tokens.flatMap Token.text ∧
      ∀ t ∈ tokens.head?, t.category = .plain → t.text <+: lead := by
  induction tokens with
  | nil => exact ⟨[], [], rfl, rfl, rfl, by simp⟩
  | cons t tokens ih =>
      obtain ⟨lead, later, hlead, hlater, htext, -⟩ := ih
      rw [contentCut, List.foldr_cons, ← contentCut, List.flatMap_cons, ← htext, tokenCut, hlead]
      split
      · refine ⟨t.text ++ lead, later, ?_, hlater, List.append_assoc _ _ _, ?_⟩
        · rw [escape, escape, escape, List.flatMap_append]
        · rintro u hu -
          obtain rfl := Option.some.inj hu
          exact List.prefix_append _ _
      · next hp =>
          refine ⟨[], t.text ++ (lead ++ later), rfl, ?_, rfl, ?_⟩
          · have hopening : openingTag t.category (languageOf blocks t) ≠ "/pre".toList :=
              fun h => absurd (List.cons.inj h).1 (by decide)
            have hclosing : "/span".toList ≠ "/pre".toList := by decide
            simp only [textOf?, if_neg hopening, if_neg hclosing, unescape?_escape, hlater,
              Option.bind_eq_bind, Option.bind_some, Option.pure_def, List.map_append]
          · intro u hu hup
            obtain rfl := Option.some.inj hu
            exact absurd hup hp

/-- A line feed at the start of a source is in no token. -/
theorem start_pos_of_lineFeed (ht : t ∈ (classify ('\n' :: s)).tokens) : 0 < t.span.start := by
  have hfind : ForeignBlock.find [] = [] := rfl
  have htokens := Classification.tokens_ofRules_append (s := []) (t := s) (by simp [hfind])
    Classification.defaultRules_separates fun segment hs _ f hf => by
      rw [hfind] at hs
      obtain rfl := List.mem_singleton.mp hs
      cases hf
  have hempty : (Classification.ofRules defaultRules []).tokens = [] := rfl
  rw [hempty, List.nil_append, List.nil_append] at htokens
  have ht' : t ∈ (Classification.ofRules defaultRules ('\n' :: s)).tokens := ht
  rw [htokens] at ht'
  obtain ⟨u, -, rfl⟩ := List.mem_map.mp ht'
  exact Nat.lt_of_lt_of_le Nat.one_pos (Nat.le_add_right _ _)

theorem head?_withPlain_of_lineFeed : ∃ t ∈ (classify ('\n' :: s)).withPlain.head?, t.category = .plain := by
  rw [Classification.withPlain]
  cases htokens : (classify ('\n' :: s)).tokens with
  | nil => exact ⟨_, rfl, rfl⟩
  | cons t tokens =>
      have hpos : 0 < t.span.start := start_pos_of_lineFeed (by rw [htokens]; exact List.mem_cons_self)
      rw [Classification.fillGaps, if_pos hpos]
      exact ⟨_, rfl, rfl⟩

theorem textContent?_eq (source : Text) : textContent? (fragment (classify source)) =
    some ((dropLineFeed source).map (reread browserChar)) := by
  obtain ⟨lead, later, hlead, hlater, htext, hfirst⟩ :=
    exists_contentCut (classify source).blocks (classify source).withPlain
  have htiled := Classification.tiled_classify source
  have hsource : lead ++ later = source := htext.trans htiled.concat
  have hdrop : lead = [] → later.head? ≠ some '\n' := by
    rintro rfl hnl
    obtain ⟨rest, rfl⟩ : ∃ rest, later = '\n' :: rest := List.head?_eq_some_iff.mp hnl
    obtain rfl := hsource
    obtain ⟨t, ht, hp⟩ := head?_withPlain_of_lineFeed (s := rest)
    exact htiled.text_ne_nil (List.mem_of_mem_head? ht) (List.prefix_nil.mp (hfirst t ht hp))
  have hdropped : dropLineFeed source = dropLineFeed lead ++ later := by
    rw [← hsource, dropLineFeed_append hdrop]
  rw [textContent?, (page_fragment (classify source)).markup?, hdropped, List.map_append]
  simp only [hlead, hlater, dropLineFeed_escape, unescape?_escape, Option.bind_eq_bind,
    Option.bind_some, if_true, Option.pure_def]

theorem mem_of_lookup {n : Nat} {d : Char} {table : List (Nat × Char)}
    (h : table.lookup n = some d) : (n, d) ∈ table := by
  obtain ⟨before, after, rfl, -⟩ := List.lookup_eq_some_iff.mp h
  simp

theorem reread_browserChar : reread browserChar c = c ↔ remapped.lookup c.toNat = none := by
  have hentry : ∀ p ∈ remapped, 0x7F < p.1 ∧ p.2.toNat ≠ p.1 := by decide
  rw [reread, browserChar]
  cases hl : remapped.lookup c.toNat with
  | none => simp
  | some d =>
      obtain ⟨hlarge, hne⟩ := hentry _ (mem_of_lookup hl)
      rw [if_pos hlarge, Option.getD_some]
      refine ⟨fun h => absurd (congrArg Char.toNat h) hne, fun h => by cases h⟩

theorem map_reread_browserChar :
    s.map (reread browserChar) = s ↔ ∀ c ∈ s, remapped.lookup c.toNat = none := by
  have hid : s.map (reread browserChar) = s ↔ s.map (reread browserChar) = s.map id := by
    rw [List.map_id]
  rw [hid, List.map_inj_left]
  exact forall₂_congr fun c _ => reread_browserChar

theorem textContent?_fragment (source : Text) :
    textContent? (fragment (classify source)) =
      some ((dropLineFeed source).map (reread browserChar)) ∧
    (textContent? (fragment (classify source)) = some source ↔
      source.head? ≠ some '\n' ∧ ∀ c ∈ source, remapped.lookup c.toNat = none) := by
  refine ⟨textContent?_eq source, ?_⟩
  rw [textContent?_eq, Option.some_inj]
  constructor
  · intro h
    have hhead : source.head? ≠ some '\n' := by
      intro hnl
      obtain ⟨rest, rfl⟩ : ∃ rest, source = '\n' :: rest := List.head?_eq_some_iff.mp hnl
      have hlen := congrArg List.length h
      rw [List.length_map, List.length_cons] at hlen
      exact absurd hlen (Nat.ne_of_lt (Nat.lt_succ_self _))
    rw [dropLineFeed_of_head? hhead] at h
    exact ⟨hhead, map_reread_browserChar.mp h⟩
  · rintro ⟨hhead, hc⟩
    rw [dropLineFeed_of_head? hhead]
    exact map_reread_browserChar.mpr hc

example : textContent? (fragment (classify "\u0080")) = some ['\u20AC'] := by decide

theorem line_feed_not_shown : ¬ ∀ source : Text,
    (∀ c ∈ source, c = '\t' ∨ c = '\n' ∨ 0x20 ≤ c.toNat) →
      textContent? (fragment (classify source)) = some source := by
  intro h
  have hallowed : ∀ c ∈ "\n".toList, c = '\t' ∨ c = '\n' ∨ 0x20 ≤ c.toNat :=
    fun c hc => .inr (.inl (List.mem_singleton.mp hc))
  exact absurd (h "\n" hallowed) (by decide)

end PioSyntax.Html

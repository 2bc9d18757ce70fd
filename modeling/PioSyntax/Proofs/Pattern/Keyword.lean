import Mathlib.Data.Set.Operations
import PioSyntax.Proofs.Pattern.BlockComment

namespace PioSyntax

open Text

def Found.span (f : Found) : Span := ⟨f.start, f.start + f.hit.size⟩

namespace Pattern

structure Stands (text word : Text) (start : Nat) : Prop where
  same : sameLetters word (text.between start (start + word.length)) = true
  before : ∀ i c, start = i + 1 → text[i]? = some c → isWord c = false ∧ c ≠ '.'
  after : ∀ c, text[start + word.length]? = some c → isWord c = false

/-- What is reported from `start` on if at each place the longest word is taken, and the next place
is the one after it. The empty word does not count. -/
inductive Greedy (words : Set Text) (text : Text) : Nat → List Span → Prop
  | finished {start : Nat} (h : text.length ≤ start) : Greedy words text start []
  | found {start : Nat} {word : Text} {spans : List Span} (hw : word ∈ words) (hne : word ≠ [])
      (hs : Stands text word start)
      (hmax : ∀ v ∈ words, Stands text v start → v.length ≤ word.length)
      (rest : Greedy words text (start + word.length) spans) :
      Greedy words text start (⟨start, start + word.length⟩ :: spans)
  | passed {start : Nat} {spans : List Span} (hlt : start < text.length)
      (h : ∀ word ∈ words, word ≠ [] → ¬ Stands text word start)
      (rest : Greedy words text (start + 1) spans) : Greedy words text start spans

def IsSeries (words : List Text) : Prop :=
  (∃ v ∈ words, ∃ w ∈ words, v ≠ w) ∧ ∃ stem : Text, ∀ w ∈ words, ∃ c, w = stem ++ [c]

/-- In a series, a word that ends in a capital beyond the basic plane is never found. -/
def IsLost (words : List Text) (word : Text) : Prop :=
  IsSeries words ∧ ∃ c, word.getLast? = some c ∧ isHighCapital c = true

def spansOf (found : List Found) : List Span :=
  (found.map Found.span).filter fun s => ¬ s.IsEmpty

def keywordSpans (words : List Text) (text : Text) : List Span :=
  spansOf ((keyword words).find ⟨0, none, text⟩)

variable {words words' : List Text} {W W' : Set Text} {text word pre : Text} {start : Nat}
variable {spans spans' : List Span} {s : Span}

theorem Stands.stop_le (h : Stands text word start) (hne : word ≠ []) :
    start + word.length ≤ text.length := by
  have hlen := length_of_sameLetters h.same
  have hpos := List.length_pos_of_ne_nil hne
  rw [between, Nat.add_sub_cancel_left, List.length_take, List.length_drop] at hlen
  omega

theorem stands_iff : Stands (pre ++ text) word pre.length ↔
    (startsWord pre.getLast? && pre.getLast? != some '.') = true ∧ standsAt text word = true := by
  have hsame : (pre ++ text).between pre.length (pre.length + word.length) =
      text.take word.length := by
    rw [between, List.drop_left, Nat.add_sub_cancel_left]
  have hafter : (pre ++ text)[pre.length + word.length]? = text[word.length]? := by
    rw [List.getElem?_append_right (Nat.le_add_right _ _), Nat.add_sub_cancel_left]
  constructor
  · rintro ⟨hs, hb, ha⟩
    rw [hsame] at hs
    rw [hafter] at ha
    constructor
    · rcases List.eq_nil_or_concat' pre with rfl | ⟨pre, c, rfl⟩
      · rfl
      · obtain ⟨hword, hpoint⟩ := hb pre.length c (by simp) (by simp)
        simp [startsWord, hword, hpoint]
    · refine standsAt_iff.mpr ⟨_, _, (List.take_append_drop word.length text).symm, hs, ?_⟩
      rw [Stops, List.head?_drop]
      cases h : text[word.length]? with
      | none => rfl
      | some c => exact ha c h
  · rintro ⟨hb, hs⟩
    obtain ⟨taken, rest, rfl, hs, hr⟩ := standsAt_iff.mp hs
    have hlen := length_of_sameLetters hs
    refine ⟨?_, ?_, ?_⟩
    · rwa [hsame, hlen, List.take_left]
    · intro i c hi hc
      have hlast : pre.getLast? = some c := by
        rw [List.getLast?_eq_getElem?, hi, Nat.add_sub_cancel, ← hc,
          List.getElem?_append_left (by omega)]
      rw [hlast] at hb
      simpa [startsWord] using hb
    · intro c hc
      rw [hafter, hlen, List.getElem?_append_right (Nat.le_refl _), Nat.sub_self,
        ← List.head?_eq_getElem?] at hc
      rw [Stops, hc] at hr
      exact hr

theorem Greedy.unique (h : Greedy W text start spans) (h' : Greedy W text start spans') :
    spans = spans' := by
  induction h generalizing spans' with
  | finished hle =>
      cases h' with
      | finished => rfl
      | found hw hne hs =>
          have := hs.stop_le hne
          have := List.length_pos_of_ne_nil hne
          omega
      | passed hlt => omega
  | found hw hne hs hmax _ ih =>
      cases h' with
      | finished hle =>
          have := hs.stop_le hne
          have := List.length_pos_of_ne_nil hne
          omega
      | found hw' hne' hs' hmax' rest =>
          have hlen := Nat.le_antisymm (hmax' _ hw hs) (hmax _ hw' hs')
          rw [← hlen] at rest ⊢
          rw [ih rest]
      | passed hlt hnone => exact absurd hs (hnone _ hw hne)
  | passed hlt hnone _ ih =>
      cases h' with
      | finished hle => omega
      | found hw hne hs => exact absurd hs (hnone _ hw hne)
      | passed _ _ rest => exact ih rest

/-- The empty word makes no difference. -/
theorem Greedy.congr (h : Greedy W text start spans) (hw : ∀ w ≠ [], w ∈ W ↔ w ∈ W') :
    Greedy W' text start spans := by
  induction h with
  | finished hle => exact .finished hle
  | @found start word spans hm hne hs hmax _ ih =>
      refine .found ((hw _ hne).mp hm) hne hs (fun v hv hstands => ?_) ih
      by_cases hv₀ : v = []
      · simp [hv₀]
      · exact hmax v ((hw v hv₀).mpr hv) hstands
  | passed hlt hnone _ ih =>
      exact .passed hlt (fun v hv hne => hnone v ((hw v hne).mpr hv) hne) ih

theorem isSeries_iff : isSeries words = true ↔ IsSeries words := by
  cases words with
  | nil => simp [isSeries, IsSeries]
  | cons w words =>
      simp only [isSeries, Bool.and_eq_true, List.all_eq_true, List.any_eq_true, Bool.not_eq_true',
        List.isEmpty_eq_false_iff, decide_eq_true_eq]
      constructor
      · rintro ⟨⟨hw, hall⟩, v, hv, hne⟩
        refine ⟨⟨v, List.mem_cons_of_mem w hv, w, List.mem_cons_self, hne⟩, w.dropLast, ?_⟩
        refine List.forall_mem_cons.mpr ⟨⟨w.getLast hw, (List.dropLast_append_getLast hw).symm⟩, ?_⟩
        intro v hv
        obtain ⟨hv₀, hstem⟩ := hall v hv
        exact ⟨v.getLast hv₀, by rw [← hstem, List.dropLast_append_getLast hv₀]⟩
      · rintro ⟨⟨u, hu, v, hv, hne⟩, stem, hstem⟩
        obtain ⟨⟨c, rfl⟩, hrest⟩ := List.forall_mem_cons.mp hstem
        refine ⟨⟨by simp, fun v hv => ?_⟩, ?_⟩
        · obtain ⟨d, rfl⟩ := hrest v hv
          simp
        · -- one of two different words is not the first one
          by_cases huw : u = stem ++ [c]
          · exact ⟨v, List.mem_of_ne_of_mem (fun h => hne (huw.trans h.symm)) hv,
              fun h => hne (huw.trans h.symm)⟩
          · exact ⟨u, List.mem_of_ne_of_mem huw hu, huw⟩

theorem mem_findable (hne : word ≠ []) :
    word ∈ findable words ↔ word ∈ words ∧ ¬ IsLost words word := by
  have hhigh : (!word.getLast?.any isHighCapital) = true ↔
      ¬ ∃ c, word.getLast? = some c ∧ isHighCapital c = true := by
    simp [Option.any_eq_false]
  rw [findable]
  split
  · next h =>
      have hnil : words = [] := List.isEmpty_iff.mp h
      simp [hnil, hne]
  · split
    · next h =>
        rw [List.mem_filter, hhigh, IsLost, not_and, imp_iff_right (isSeries_iff.mp h)]
    · next h => simp [IsLost, ← isSeries_iff, h]

theorem exists_stands_of_recognise {hit : Hit}
    (h : (keyword words).recognise pre.getLast? text = some hit) :
    ∃ word ∈ findable words, Stands (pre ++ text) word pre.length ∧ hit = ⟨word.length, none⟩ ∧
      ∀ v ∈ findable words, Stands (pre ++ text) v pre.length → v.length ≤ word.length := by
  rw [recognise, keyword?] at h
  split at h
  · next hb =>
      obtain ⟨n, hn, rfl⟩ := Option.map_eq_some_iff.mp h
      obtain ⟨hm, hmax⟩ := List.max?_eq_some_iff.mp hn
      obtain ⟨word, hw, hs, rfl⟩ := mem_lengths.mp hm
      refine ⟨word, hw, stands_iff.mpr ⟨hb, hs⟩, rfl, fun v hv hv' => ?_⟩
      exact hmax _ (mem_lengths.mpr ⟨v, hv, (stands_iff.mp hv').2, rfl⟩)
  · cases h

theorem recognise_keyword_eq_none (h : (keyword words).recognise pre.getLast? text = none) :
    ∀ word ∈ findable words, ¬ Stands (pre ++ text) word pre.length := by
  intro word hw hs
  obtain ⟨hb, hs⟩ := stands_iff.mp hs
  rw [recognise, keyword?, if_pos hb, Option.map_eq_none_iff, List.max?_eq_none_iff] at h
  exact List.not_mem_nil (h ▸ mem_lengths.mpr ⟨word, hw, hs, rfl⟩)

theorem spansOf_cons {f : Found} {found : List Found} (h : f.hit.size = 0) :
    spansOf (f :: found) = spansOf found := by
  rw [spansOf, List.map_cons, List.filter_cons_of_neg]
  · rfl
  · simp [Found.span, Span.IsEmpty, h]

theorem spansOf_findFrom_nil (p : Pattern) (before : Option Char) (start : Nat) :
    spansOf (p.findFrom 0 before start []) = [] := by
  simp only [findFrom]
  split
  · next hit hr => exact spansOf_cons (Nat.le_zero.mp (size_le hr))
  · rfl

/-- Where nothing is taken, the search goes on one character further. -/
theorem spansOf_findFrom_cons {p : Pattern} {before : Option Char} {c : Char}
    (h : ∀ hit, p.recognise before (c :: text) = some hit → hit.size = 0) :
    spansOf (p.findFrom 0 before start (c :: text)) =
      spansOf (p.findFrom 0 (some c) (start + 1) text) := by
  simp only [findFrom]
  split
  · next hit hr =>
      have hsize := h hit hr
      rw [spansOf_cons hsize, hsize]
  · rfl

theorem greedy_findFrom (words : List Text) (pre text : Text) :
    Greedy {w | w ∈ findable words} (pre ++ text) pre.length
      (spansOf ((keyword words).findFrom 0 pre.getLast? pre.length text)) := by
  induction h : text.length using Nat.strongRecOn generalizing pre text with
  | ind n ih =>
      subst h
      by_cases hstands : ∃ word ∈ findable words, word ≠ [] ∧ Stands (pre ++ text) word pre.length
      · obtain ⟨v, hv, hne, hvs⟩ := hstands
        obtain ⟨hit, hr⟩ : ∃ hit, (keyword words).recognise pre.getLast? text = some hit :=
          Option.ne_none_iff_exists'.mp fun hnone => recognise_keyword_eq_none hnone v hv hvs
        obtain ⟨word, hw, hs, rfl, hmax⟩ := exists_stands_of_recognise hr
        have hpos := Nat.lt_of_lt_of_le (List.length_pos_of_ne_nil hne) (hmax v hv hvs)
        obtain ⟨taken, rest, rfl, hsame, -⟩ := standsAt_iff.mp (stands_iff.mp hs).2
        have hlen := length_of_sameLetters hsame
        have htaken : taken ≠ [] := List.ne_nil_of_length_pos (hlen ▸ hpos)
        have hrest := ih rest.length (by rw [List.length_append]; omega) (pre ++ taken) rest rfl
        rw [List.append_assoc, List.length_append, List.getLast?_append] at hrest
        rw [findFrom_hit hr hlen htaken]
        have hspan : spansOf (⟨pre.length, taken ++ rest, ⟨word.length, none⟩⟩ ::
            findFrom (keyword words) 0 (charBefore pre.getLast? taken)
              (pre.length + taken.length) rest) =
            ⟨pre.length, pre.length + word.length⟩ ::
              spansOf (findFrom (keyword words) 0 (charBefore pre.getLast? taken)
                (pre.length + taken.length) rest) := by
          rw [spansOf, List.map_cons, List.filter_cons_of_pos]
          · rfl
          · exact decide_eq_true (Nat.not_le_of_lt (Nat.lt_add_of_pos_right hpos))
        rw [hspan]
        refine .found hw (List.ne_nil_of_length_pos hpos) hs hmax ?_
        rw [hlen]
        exact hrest
      · cases text with
        | nil =>
            rw [spansOf_findFrom_nil]
            exact .finished (by simp)
        | cons c text =>
            have hsize : ∀ hit, (keyword words).recognise pre.getLast? (c :: text) = some hit →
                hit.size = 0 := by
              intro hit hr
              obtain ⟨word, hw, hs, rfl, -⟩ := exists_stands_of_recognise hr
              by_contra hne
              exact hstands ⟨word, hw, by simpa using hne, hs⟩
            have hrest := ih text.length (Nat.lt_succ_self _) (pre ++ [c]) text rfl
            rw [List.append_assoc, List.getLast?_concat, List.length_append] at hrest
            rw [spansOf_findFrom_cons hsize]
            exact .passed (by simp) (fun w hw hne hs => hstands ⟨w, hw, hne, hs⟩) hrest

theorem greedy_keywordSpans (words : List Text) (text : Text) :
    Greedy {w | w ∈ words ∧ ¬ IsLost words w} text 0 (keywordSpans words text) :=
  (greedy_findFrom words [] text).congr fun _ hne => mem_findable hne

theorem Greedy.exists_stands (h : Greedy W text start spans) (hs : s ∈ spans) :
    ∃ word ∈ W, word ≠ [] ∧ Stands text word s.start := by
  induction h with
  | finished => cases hs
  | found hw hne hstands _ _ ih =>
      rcases List.mem_cons.mp hs with rfl | hs
      · exact ⟨_, hw, hne, hstands⟩
      · exact ih hs
  | passed _ _ _ ih => exact ih hs

theorem IsSeries.length_eq {v w : Text} (h : IsSeries words) (hv : v ∈ words) (hw : w ∈ words) :
    v.length = w.length := by
  obtain ⟨-, stem, hstem⟩ := h
  obtain ⟨c, rfl⟩ := hstem v hv
  obtain ⟨d, rfl⟩ := hstem w hw
  rw [List.length_append, List.length_append]
  rfl

/-- If at each place that is reported some word stands that is not lost, the others are not
missed. -/
theorem Greedy.of_kept (h : Greedy {w | w ∈ words} text start spans)
    (hkept : ∀ s ∈ spans, ∃ w ∈ words, ¬ IsLost words w ∧ w ≠ [] ∧ Stands text w s.start) :
    Greedy {w | w ∈ words ∧ ¬ IsLost words w} text start spans := by
  induction h with
  | finished hle => exact .finished hle
  | @found start word spans hw hne hs hmax _ ih =>
      rw [List.forall_mem_cons] at hkept
      obtain ⟨⟨v, hv, hvkept, hvne, hvs⟩, hkept⟩ := hkept
      obtain ⟨u, ⟨hu, hukept⟩, hune, hus, hlen⟩ : ∃ u ∈ {w | w ∈ words ∧ ¬ IsLost words w},
          u ≠ [] ∧ Stands text u start ∧ u.length = word.length := by
        by_cases hseries : IsSeries words
        · exact ⟨v, ⟨hv, hvkept⟩, hvne, hvs, hseries.length_eq hv hw⟩
        · exact ⟨word, ⟨hw, fun hlost => hseries hlost.1⟩, hne, hs, rfl⟩
      rw [← hlen] at hmax ih ⊢
      exact .found ⟨hu, hukept⟩ hune hus (fun w hw hstands => hmax w hw.1 hstands) (ih hkept)
  | passed hlt hnone _ ih =>
      exact .passed hlt (fun w hw => hnone w hw.1) (ih hkept)

theorem isLost_congr (h : ∀ w, w ∈ words' ↔ w ∈ words) : IsLost words' word ↔ IsLost words word := by
  simp only [IsLost, IsSeries, h]

/-- With the empty word among them, words are no series. -/
theorem not_isLost_empty_cons : ¬ IsLost ([] :: words) word := by
  rintro ⟨⟨-, stem, hstem⟩, -⟩
  obtain ⟨c, hc⟩ := hstem [] List.mem_cons_self
  exact absurd hc (by simp)

theorem greedy_keywordSpans_empty (words : List Text) (text : Text) :
    Greedy {w | w ∈ words} text 0 (keywordSpans ([] :: words) text) :=
  (greedy_keywordSpans ([] :: words) text).congr fun w hne => by
    simp only [Set.mem_ofPred_eq, not_isLost_empty_cons, not_false_eq_true, and_true, List.mem_cons,
      hne, false_or]

/-- The search for words takes the longest word at each place from left to right. Neither order nor
repetition of the words matters. Words that a series loses are found as soon as the empty word is
added; this makes no difference exactly if at each of their places another word stands. -/
theorem keywordSpans_eq (words : List Text) (text : Text) :
    (∀ spans, Greedy {w | w ∈ words ∧ ¬ IsLost words w} text 0 spans ↔
      spans = keywordSpans words text) ∧
    (∀ spans, Greedy {w | w ∈ words} text 0 spans ↔ spans = keywordSpans ([] :: words) text) ∧
    (keywordSpans words text = keywordSpans ([] :: words) text ↔
      ∀ s ∈ keywordSpans ([] :: words) text,
        ∃ w ∈ words, ¬ IsLost words w ∧ w ≠ [] ∧ Stands text w s.start) ∧
    ∀ words', (∀ w, w ∈ words' ↔ w ∈ words) → keywordSpans words' text = keywordSpans words text := by
  have hall := greedy_keywordSpans_empty words text
  have hkept := greedy_keywordSpans words text
  refine ⟨fun spans => ⟨fun h => h.unique hkept, fun h => h ▸ hkept⟩,
    fun spans => ⟨fun h => h.unique hall, fun h => h ▸ hall⟩, ⟨fun h s hs => ?_, fun h => ?_⟩,
    fun words' h => ?_⟩
  · rw [← h] at hs
    obtain ⟨w, ⟨hw, hlost⟩, hne, hstands⟩ := hkept.exists_stands hs
    exact ⟨w, hw, hlost, hne, hstands⟩
  · exact hkept.unique (hall.of_kept h)
  · have hsame := greedy_keywordSpans words' text
    simp only [isLost_congr h, h] at hsame
    exact hsame.unique hkept

/-- The longer word is taken, whichever stands first. -/
theorem keywordSpans_eq_reordered :
    Greedy {w | w ∈ ["in".toList, "inout".toList] ∧ ¬ IsLost ["in".toList, "inout".toList] w}
        "inout in" 0 [⟨0, 5⟩, ⟨6, 8⟩] ∧
      keywordSpans ["inout", "in", "in"] "inout in" = keywordSpans ["in", "inout"] "inout in" := by
  obtain ⟨hgreedy, -, -, hset⟩ := keywordSpans_eq ["in", "inout"] "inout in"
  refine ⟨(hgreedy _).mpr (by decide), hset _ fun w => ?_⟩
  simp only [List.mem_cons, List.not_mem_nil, or_false]
  constructor
  · rintro (h | h | h)
    · exact .inr h
    · exact .inl h
    · exact .inl h
  · rintro (h | h)
    · exact .inr (.inl h)
    · exact .inl h

/-- Two words that are single capitals beyond the basic plane are not found. -/
theorem capital_lost : ¬ ∀ (words : List Text) (text : Text) (spans : List Span),
    Greedy {w | w ∈ words} text 0 spans ↔ spans = keywordSpans words text := by
  intro h
  have hgreedy := (h [[Char.ofNat 0x10400], [Char.ofNat 0x10402]] [Char.ofNat 0x10400] []).mpr
    (by decide +kernel)
  have hstands : Stands [Char.ofNat 0x10400] [Char.ofNat 0x10400] 0 :=
    ⟨by decide +kernel, fun i c hi => absurd hi (Nat.succ_ne_zero i).symm, fun c hc => nomatch hc⟩
  cases hgreedy with
  | finished hle => exact absurd hle (by decide)
  | passed _ hnone => exact hnone _ List.mem_cons_self (by decide) hstands

end Pattern

end PioSyntax

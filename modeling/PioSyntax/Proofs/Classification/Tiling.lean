import Mathlib.Data.List.Chain
import PioSyntax.Proofs.Classification.Tokens

namespace PioSyntax

open Text

inductive Span.Tiles : (start : Nat) → List Span → (stop : Nat) → Prop
  | nil {stop : Nat} : Tiles stop [] stop
  | cons {start : Nat} {s : Span} {spans : List Span} {stop : Nat} (he : s.start = start)
      (hs : s.start < s.stop) (rest : Tiles s.stop spans stop) : Tiles start (s :: spans) stop

def Token.Covers (t : Token) (offset : Int) : Prop :=
  (t.span.start : Int) ≤ offset ∧ offset < t.span.stop

instance (t : Token) (offset : Int) : Decidable (t.Covers offset) :=
  inferInstanceAs (Decidable (_ ∧ _))

theorem Span.Tiles.le {start stop : Nat} {spans : List Span} (h : Tiles start spans stop) :
    start ≤ stop := by
  induction h with
  | nil => exact Nat.le_refl _
  | cons he hs _ ih => omega

theorem Span.Tiles.bounds {start stop : Nat} {spans : List Span} {s : Span}
    (h : Tiles start spans stop) (hs : s ∈ spans) : s.start < s.stop ∧ s.stop ≤ stop := by
  induction h with
  | nil => cases hs
  | cons he hlt rest ih =>
      rcases List.mem_cons.mp hs with rfl | hs
      · exact ⟨hlt, rest.le⟩
      · exact ih hs

theorem Span.Tiles.flatMap_slice {source : Text} {start stop : Nat} {spans : List Span}
    (h : Tiles start spans stop) : spans.flatMap (·.slice source) = source.between start stop := by
  induction h with
  | nil => rw [between_self, List.flatMap_nil]
  | cons he hs rest ih =>
      rw [List.flatMap_cons, ih, slice, ← between_eq_append (Nat.le_of_lt hs) rest.le, he]

theorem Token.tiles_inOrder {tokens : List Token} {start stop : Nat}
    (h : Span.Tiles start (tokens.map span) stop) :
    InOrder tokens ∧ ∀ t ∈ tokens, start ≤ t.span.start := by
  induction tokens generalizing start with
  | nil => exact ⟨inOrder_nil, by simp⟩
  | cons t tokens ih =>
      rw [List.map_cons] at h
      cases h with
      | cons he hs rest =>
          obtain ⟨hrest, hstart⟩ := ih rest
          refine ⟨inOrder_cons.mpr ⟨hs, hstart, hrest⟩, fun u hu => ?_⟩
          rcases List.mem_cons.mp hu with rfl | hu
          · exact Nat.le_of_eq he.symm
          · have := hstart u hu
            omega

theorem Token.InOrder.eq_of_covers {tokens : List Token} {t u : Token} {offset : Int}
    (h : InOrder tokens) (ht : t ∈ tokens) (hu : u ∈ tokens) (hto : t.Covers offset)
    (huo : u.Covers offset) : t = u := by
  simp only [Covers] at hto huo
  induction tokens with
  | nil => cases ht
  | cons a tokens ih =>
      obtain ⟨-, ha, h⟩ := inOrder_cons.mp h
      rcases List.mem_cons.mp ht with rfl | ht'
      · rcases List.mem_cons.mp hu with rfl | hu'
        · rfl
        · have := ha u hu'
          omega
      · rcases List.mem_cons.mp hu with rfl | hu'
        · have := ha t ht'
          omega
        · exact ih h ht' hu'

theorem Token.InOrder.eq_of_overlaps {tokens : List Token} {t u : Token} (h : Token.InOrder tokens)
    (ht : t ∈ tokens) (hu : u ∈ tokens) (ho : t.span.Overlaps u.span) : t = u := by
  obtain ⟨i, hi, hi'⟩ := ho
  have hti : t.Covers i := by simpa [Token.Covers] using hi
  have hui : u.Covers i := by simpa [Token.Covers] using hi'
  exact h.eq_of_covers ht hu hti hui

namespace Classification

variable {offset : Nat} {text source : Text} {tokens : List Token} {t : Token}

structure Tiled (c : Classification) : Prop where
  isPart : ∀ t ∈ c.tokens, t.IsPart c.source
  sorted : c.tokens.Pairwise fun t u => t.span.start < u.span.start ∧ t.span.stop ≤ u.span.start
  sublist : c.tokens.Sublist c.withPlain
  gaps : ∀ t ∈ c.withPlain, t ∈ c.tokens ∨ t.category = .plain
  tiles : Span.Tiles 0 (c.withPlain.map Token.span) c.source.length
  text : ∀ t ∈ c.withPlain, t.text = t.span.slice c.source
  concat : c.withPlain.flatMap Token.text = c.source
  covered : ∀ offset : Int, ∀ t ∈ c.withPlain, t.Covers offset → c.categoryAt offset = t.category
  uncovered : ∀ offset : Int, (∀ t ∈ c.withPlain, ¬ t.Covers offset) →
    c.categoryAt offset = .plain

theorem drop_length (h : offset ≤ t.span.stop) (he : t.span.stop ≤ offset + text.length) :
    t.span.stop + (text.drop (t.span.stop - offset)).length = offset + text.length := by
  rw [List.length_drop]
  omega

theorem fillGaps_tiles (h : Token.InOrder tokens) (hs : ∀ t ∈ tokens, offset ≤ t.span.start)
    (he : ∀ t ∈ tokens, t.span.stop ≤ offset + text.length) :
    Span.Tiles offset ((fillGaps offset text tokens).map Token.span) (offset + text.length) := by
  induction tokens generalizing offset text with
  | nil =>
      rw [fillGaps]
      split
      · next ht => simpa [ht] using Span.Tiles.nil
      · next ht =>
          have hpos := List.length_pos_of_ne_nil ht
          exact .cons rfl (Nat.lt_add_of_pos_right hpos) .nil
  | cons t tokens ih =>
      obtain ⟨hne, hapart, h⟩ := Token.inOrder_cons.mp h
      rw [List.forall_mem_cons] at hs he
      have hlen := drop_length (Nat.le_trans hs.1 (Nat.le_of_lt hne)) he.1
      have hrest := ih h hapart (hlen ▸ he.2)
      rw [hlen] at hrest
      rw [fillGaps]
      split
      · next hlt => exact .cons rfl hlt (.cons rfl hne hrest)
      · next hge => exact .cons (Nat.le_antisymm (Nat.le_of_not_lt hge) hs.1) hne hrest

theorem sublist_fillGaps (offset : Nat) (text : Text) (tokens : List Token) :
    tokens.Sublist (fillGaps offset text tokens) := by
  induction tokens generalizing offset text with
  | nil => exact List.nil_sublist _
  | cons t tokens ih =>
      rw [fillGaps]
      split
      · exact ((ih _ _).cons_cons t).cons _
      · exact (ih _ _).cons_cons t

theorem filter_fillGaps (h : ∀ t ∈ tokens, t.category ≠ .plain) :
    (fillGaps offset text tokens).filter (·.category ≠ .plain) = tokens := by
  induction tokens generalizing offset text with
  | nil =>
      rw [fillGaps]
      split <;> rfl
  | cons t tokens ih =>
      rw [List.forall_mem_cons] at h
      have htokens : (t :: fillGaps t.span.stop (text.drop (t.span.stop - offset)) tokens).filter
          (·.category ≠ .plain) = t :: tokens := by
        rw [List.filter_cons_of_pos (by simpa using h.1), ih h.2]
      rw [fillGaps]
      split
      · rw [List.filter_cons_of_neg (by simp), htokens]
      · exact htokens

theorem mem_fillGaps (h : Token.InOrder tokens) (hs : ∀ t ∈ tokens, offset ≤ t.span.start)
    (htext : text = source.drop offset) (ht : t ∈ fillGaps offset text tokens) :
    t ∈ tokens ∨ t.category = .plain ∧ t.text = t.span.slice source := by
  induction tokens generalizing offset text with
  | nil =>
      rw [fillGaps] at ht
      split at ht
      · cases ht
      · obtain rfl := List.mem_singleton.mp ht
        refine .inr ⟨rfl, ?_⟩
        simp only [Span.slice, between, Nat.add_sub_cancel_left, ← htext, List.take_length]
  | cons u tokens ih =>
      obtain ⟨hne, hapart, h⟩ := Token.inOrder_cons.mp h
      rw [List.forall_mem_cons] at hs
      have hdrop : text.drop (u.span.stop - offset) = source.drop u.span.stop := by
        rw [htext, List.drop_drop, Nat.add_sub_cancel' (by omega)]
      have hrest : t ∈ u :: fillGaps u.span.stop (text.drop (u.span.stop - offset)) tokens →
          t ∈ u :: tokens ∨ t.category = .plain ∧ t.text = t.span.slice source := by
        intro ht
        rcases List.mem_cons.mp ht with rfl | ht
        · exact .inl (by simp)
        · exact (ih h hapart hdrop ht).imp_left (List.mem_cons_of_mem _)
      rw [fillGaps] at ht
      split at ht
      · rcases List.mem_cons.mp ht with rfl | ht
        · exact .inr ⟨rfl, by rw [htext]; rfl⟩
        · exact hrest ht
      · exact hrest ht

/-- In tokens in order, none that covers an offset comes after one that starts beyond it. -/
theorem mem_takeWhile_of_covers {offset : Int} (h : Token.InOrder tokens) (ht : t ∈ tokens)
    (ho : t.Covers offset) : t ∈ tokens.takeWhile fun u => (u.span.start : Int) ≤ offset := by
  induction tokens with
  | nil => cases ht
  | cons u tokens ih =>
      obtain ⟨hne, hapart, h⟩ := Token.inOrder_cons.mp h
      have hstart : (u.span.start : Int) ≤ offset := by
        rcases List.mem_cons.mp ht with rfl | ht
        · exact ho.1
        · have hle := hapart t ht
          have hstart := ho.1
          omega
      rw [List.takeWhile_cons_of_pos (by simpa using hstart), List.mem_cons]
      exact (List.mem_cons.mp ht).imp_right (ih h)

theorem categoryAt_cases (c : Classification) (offset : Int) :
    (∃ t ∈ c.tokens, t.Covers offset ∧ c.categoryAt offset = t.category) ∨
      (∀ t ∈ c.tokens.takeWhile fun t => (t.span.start : Int) ≤ offset, ¬ t.Covers offset) ∧
        c.categoryAt offset = .plain := by
  unfold categoryAt
  dsimp only
  cases hf : (c.tokens.takeWhile fun t => (t.span.start : Int) ≤ offset).find?
      fun t => offset < t.span.stop with
  | none =>
      refine .inr ⟨fun t ht ho => ?_, rfl⟩
      simpa using List.find?_eq_none.mp hf t ht (decide_eq_true ho.2)
  | some t =>
      have ht := List.mem_of_find?_eq_some hf
      have hstart : (t.span.start : Int) ≤ offset := by
        simpa using List.all_eq_true.mp List.all_takeWhile t ht
      have hstop : offset < t.span.stop := by simpa using List.find?_some hf
      exact .inl ⟨t, (List.takeWhile_sublist _).subset ht, ⟨hstart, hstop⟩, rfl⟩

theorem categoryAt_of_mem {c : Classification} {offset : Int} (h : Token.InOrder c.tokens)
    (ht : t ∈ c.tokens) (ho : t.Covers offset) : c.categoryAt offset = t.category := by
  rcases categoryAt_cases c offset with ⟨u, hu, huo, hc⟩ | ⟨hnone, -⟩
  · rw [hc, h.eq_of_covers hu ht huo ho]
  · exact absurd ho (hnone t (mem_takeWhile_of_covers h ht ho))

theorem categoryAt_of_uncovered {c : Classification} {offset : Int}
    (h : ∀ t ∈ c.tokens, ¬ t.Covers offset) : c.categoryAt offset = .plain := by
  rcases categoryAt_cases c offset with ⟨t, ht, ho, -⟩ | ⟨-, hc⟩
  · exact absurd ho (h t ht)
  · exact hc

theorem tiled_of_inOrder {c : Classification} (h : Token.InOrder c.tokens)
    (hp : ∀ t ∈ c.tokens, t.IsPart c.source) : c.Tiled := by
  have hmem : ∀ t ∈ c.withPlain,
      t ∈ c.tokens ∨ t.category = .plain ∧ t.text = t.span.slice c.source :=
    fun t ht => mem_fillGaps h (fun _ _ => Nat.zero_le _) rfl ht
  have htiles : Span.Tiles 0 (c.withPlain.map Token.span) c.source.length := by
    have hend : ∀ t ∈ c.tokens, t.span.stop ≤ 0 + c.source.length :=
      fun t ht => by simpa using (hp t ht).2.1
    simpa [withPlain] using fillGaps_tiles h (fun _ _ => Nat.zero_le _) hend
  have hsub : c.tokens.Sublist c.withPlain := sublist_fillGaps 0 c.source c.tokens
  have htext : ∀ t ∈ c.withPlain, t.text = t.span.slice c.source := fun t ht =>
    (hmem t ht).elim (fun ht => (hp t ht).2.2) fun ht => ht.2
  have horder := (Token.tiles_inOrder htiles).1
  have hsorted : c.tokens.Pairwise fun t u =>
      t.span.start < u.span.start ∧ t.span.stop ≤ u.span.start :=
    h.2.imp_of_mem fun ht _ hapart => ⟨Nat.lt_of_lt_of_le (h.1 _ ht) hapart, hapart⟩
  refine ⟨hp, hsorted, hsub, fun t ht => (hmem t ht).imp_right (·.1), htiles, htext, ?_, ?_, ?_⟩
  · calc c.withPlain.flatMap Token.text
      _ = c.withPlain.flatMap fun t => t.span.slice c.source := List.flatMap_congr htext
      _ = (c.withPlain.map Token.span).flatMap fun s => s.slice c.source := by
          rw [List.flatMap_map]
      _ = c.source := htiles.flatMap_slice.trans between_full
  · intro offset t ht ho
    by_cases hu : ∃ u ∈ c.tokens, u.Covers offset
    · obtain ⟨u, hu, huo⟩ := hu
      rw [horder.eq_of_covers ht (hsub.subset hu) ho huo]
      exact categoryAt_of_mem h hu huo
    · have hplain : t.category = .plain :=
        (hmem t ht).elim (fun ht => absurd ⟨t, ht, ho⟩ hu) fun ht => ht.1
      rw [hplain]
      exact categoryAt_of_uncovered fun u hu' huo => hu ⟨u, hu', huo⟩
  · exact fun offset ho => categoryAt_of_uncovered fun t ht => ho t (hsub.subset ht)

theorem Tiled.text_ne_nil {c : Classification} (h : c.Tiled) (ht : t ∈ c.withPlain) :
    t.text ≠ [] := by
  obtain ⟨hlt, hle⟩ := h.tiles.bounds (List.mem_map_of_mem ht)
  rw [h.text t ht, Span.slice]
  apply List.ne_nil_of_length_pos
  rw [length_between hle]
  omega

theorem flatMap_map_of_tiles {α : Type} {tiles : List Token} {start stop : Nat}
    (category : Nat → Category) (f : Category → Char → α)
    (h : Span.Tiles start (tiles.map Token.span) stop) (hstop : stop ≤ source.length)
    (htext : ∀ t ∈ tiles, t.text = t.span.slice source)
    (hc : ∀ t ∈ tiles, ∀ i : Nat, t.Covers i → category i = t.category) :
    (tiles.flatMap fun t => t.text.map (f t.category)) =
      ((source.between start stop).zipIdx start).map fun (ch, i) => f (category i) ch := by
  induction tiles generalizing start with
  | nil =>
      cases h
      rw [between_self]
      rfl
  | cons t tiles ih =>
      rw [List.forall_mem_cons] at htext hc
      rw [List.map_cons] at h
      cases h with
      | cons he hs rest =>
          have hend := rest.le
          have hslice : source.between t.span.start t.span.stop = t.text := htext.1.symm
          have hlen : t.text.length = t.span.stop - t.span.start := by
            rw [← hslice, length_between (by omega)]
          -- the category is the same at every offset of the tile
          have htile : (t.text.map (f t.category)) =
              (t.text.zipIdx start).map fun (ch, i) => f (category i) ch := by
            rw [← List.zipIdx_map_fst start t.text, List.map_map, List.zipIdx_map_fst]
            apply List.map_congr_left
            rintro ⟨ch, i⟩ hmem
            obtain ⟨hstart, hend, -⟩ := List.mem_zipIdx hmem
            have hcovers : t.Covers i := by
              simp only [Token.Covers]
              omega
            simp only [Function.comp_apply, hc.1 i hcovers]
          rw [List.flatMap_cons, ih rest htext.2 hc.2, htile, ← he,
            between_eq_append (Nat.le_of_lt hs) hend, hslice, List.zipIdx_append,
            List.map_append, hlen, Nat.add_sub_cancel' (Nat.le_of_lt hs)]

/-- What is done to each character of each tile is done to the characters of the source, each with
the category at its offset. -/
theorem Tiled.flatMap_map {α : Type} {c : Classification} (h : c.Tiled) (f : Category → Char → α) :
    (c.withPlain.flatMap fun t => t.text.map (f t.category)) =
      c.source.zipIdx.map fun (ch, i) => f (c.categoryAt i) ch := by
  have hall := flatMap_map_of_tiles (fun i => c.categoryAt i) f h.tiles (Nat.le_refl _)
    h.text fun t ht i hi => h.covered i t ht hi
  rwa [between_full] at hall

theorem isPart_of_mem {rules : List Rule} (ht : t ∈ (ofRules rules source).tokens) :
    t.IsPart source := by
  rw [tokens_ofRules] at ht
  rcases Token.mem_or_mem_of_mem_claimAll ht with ht | ht
  · exact (mem_blockTokens ht).1
  · obtain ⟨r, -, ht⟩ := List.mem_flatMap.mp ht
    exact (mem_proposals ht).2.1

theorem tiled_classify (source : Text) : (classify source).Tiled :=
  tiled_of_inOrder (tokens_inOrder defaultRules source) fun _ ht => isPart_of_mem ht

theorem category_ne_plain {rules : List Rule} (hr : ∀ r ∈ rules, r.category ≠ .plain)
    (ht : t ∈ (ofRules rules source).tokens) : t.category ≠ .plain := by
  rw [tokens_ofRules] at ht
  rcases Token.mem_or_mem_of_mem_claimAll ht with ht | ht
  · rcases (mem_blockTokens ht).2 with hc | hc <;> simp [hc]
  · obtain ⟨r, hm, ht⟩ := List.mem_flatMap.mp ht
    rw [(mem_proposals ht).1]
    exact hr r hm

/-- Gaps are never neighbours: after each of them comes a token or the end. -/
theorem fillGaps_isChain (hc : ∀ t ∈ tokens, t.category ≠ .plain) :
    (fillGaps offset text tokens).IsChain
      fun t u => ¬ (t.category = .plain ∧ u.category = .plain) := by
  induction tokens generalizing offset text with
  | nil =>
      rw [fillGaps]
      split
      · exact List.isChain_nil
      · exact List.isChain_singleton _
  | cons t tokens ih =>
      rw [List.forall_mem_cons] at hc
      have hrest : (t :: fillGaps t.span.stop (text.drop (t.span.stop - offset)) tokens).IsChain
          fun t u => ¬ (t.category = .plain ∧ u.category = .plain) :=
        List.isChain_cons.mpr ⟨fun _ _ h => hc.1 h.1, ih hc.2⟩
      rw [fillGaps]
      split
      · refine List.isChain_cons.mpr ⟨?_, hrest⟩
        rintro u hu ⟨-, hplain⟩
        obtain rfl := Option.some.inj hu
        exact hc.1 hplain
      · exact hrest

/-- The tokens and the gaps between them tile a source, under any rules. The default rules never
fail, leave all plain text to the gaps, and no gap of them is cut in two. -/
theorem tiled (source : Text) :
    (∀ rules c, ofRules? rules source = .ok c → c.source = source ∧ c.Tiled) ∧
    ofRules? defaultRules source = .ok (classify source) ∧
    (∀ t ∈ (classify source).tokens, t.category ≠ .plain) ∧
    (classify source).withPlain.IsChain
      fun t u => ¬ (t.category = .plain ∧ u.category = .plain) := by
  have hplain : ∀ t ∈ (classify source).tokens, t.category ≠ .plain :=
    fun t ht => category_ne_plain (by decide) ht
  refine ⟨fun rules c h => ?_, ofRules?_of_hasGroup (by decide) source, hplain,
    fillGaps_isChain hplain⟩
  obtain rfl := eq_ofRules h
  exact ⟨rfl, tiled_of_inOrder (tokens_inOrder rules source) fun t ht => isPart_of_mem ht⟩

theorem tiled_jmp_x : (classify "jmp x").source = "jmp x".toList ∧ (classify "jmp x").Tiled :=
  (tiled "jmp x").1 defaultRules (classify "jmp x") rfl

end Classification

end PioSyntax

import PioSyntax.Proofs.Except
import PioSyntax.Style.Spec

namespace PioSyntax.Style

open Text

def Spells (keyword word : Text) : Prop := word.map Char.toLower = keyword

def IsColorWord (word : Text) : Prop :=
  ∃ digits : Text, word = '#' :: digits ∧ digits.length = 6 ∧ ∀ d ∈ digits, isHexDigit d = true

inductive IsStyleWord (word : Text) : Prop
  | bold (h : Spells "bold" word)
  | italic (h : Spells "italic" word)
  | none (h : Spells "none" word)
  | color (h : IsColorWord word)

/-- The color that words leave: that of the last word for a color, unless `none` comes after it. -/
inductive LeavesColor (ws : List Text) : Option Text → Prop
  | absent (h : ∀ w ∈ ws, ¬ IsColorWord w) : LeavesColor ws none
  | cleared {before after : List Text} {w : Text} (hws : ws = before ++ w :: after)
      (hw : IsColorWord w) (hlast : ∀ v ∈ after, ¬ IsColorWord v)
      (hnone : ∃ v ∈ after, Spells "none" v) : LeavesColor ws none
  | kept {before after : List Text} {w : Text} (hws : ws = before ++ w :: after)
      (hw : IsColorWord w) (hlast : ∀ v ∈ after, ¬ IsColorWord v)
      (hnone : ∀ v ∈ after, ¬ Spells "none" v) : LeavesColor ws (some (w.map Char.toLower))

structure Describes (ws : List Text) (s : Style) : Prop where
  valid : ∀ w ∈ ws, IsStyleWord w
  bold : s.bold = true ↔ ∃ w ∈ ws, Spells "bold" w
  italic : s.italic = true ↔ ∃ w ∈ ws, Spells "italic" w
  color : LeavesColor ws s.color

variable {s s' : Style} {w word spec keyword : Text} {ws : List Text} {color : Option Text}
variable {problem : ConfigProblem}

theorem isColor_iff : isColor w = true ↔ IsColorWord w := by
  unfold isColor IsColorWord
  split
  · next digits => simp
  · next h =>
      simp only [Bool.false_eq_true, false_iff, not_exists, not_and]
      rintro digits rfl
      exact absurd rfl (h digits)

theorem IsColorWord.not_spells (h : IsColorWord w) (hk : keyword.head? ≠ some '#') :
    ¬ Spells keyword w := by
  rintro rfl
  obtain ⟨digits, rfl, -, -⟩ := h
  exact hk rfl

theorem Spells.not_isColorWord (h : Spells keyword w) (hk : keyword.head? ≠ some '#') :
    ¬ IsColorWord w := fun hw => hw.not_spells hk h

theorem Spells.ne {keyword' : Text} (h : Spells keyword w) (hne : keyword ≠ keyword') :
    ¬ Spells keyword' w := fun h' => hne (h.symm.trans h')

theorem flatMap_lower (hdotted : '\u0130' ∉ w) (hkelvin : '\u212a' ∉ w) :
    w.flatMap lower = w.map Char.toLower := by
  induction w with
  | nil => rfl
  | cons c w ih =>
      rw [List.mem_cons, not_or] at hdotted hkelvin
      have hc : lower c = [c.toLower] := by
        rw [lower, if_neg (Ne.symm hdotted.1), if_neg (Ne.symm hkelvin.1)]
      rw [List.flatMap_cons, hc, ih hdotted.2 hkelvin.2]
      rfl

/-- No letter beyond ASCII becomes one of a keyword without a `k`. -/
theorem flatMap_lower_eq_iff (hk : (keyword.all fun c => c.toNat < 0x80 && c != 'k') = true) :
    w.flatMap lower = keyword ↔ Spells keyword w := by
  have hletter : ∀ c ∈ keyword, c.toNat < 0x80 ∧ c ≠ 'k' := by simpa using hk
  have hneither {c d : Char} (hc : c ∈ w) (hd : d ∈ lower c) (hdk : d ∉ keyword)
      (hck : c.toLower ∉ keyword) : w.flatMap lower = keyword ↔ Spells keyword w :=
    iff_of_false (fun h => hdk (h ▸ List.mem_flatMap.mpr ⟨c, hc, hd⟩))
      fun h => hck (h ▸ List.mem_map_of_mem hc)
  -- in a word with one of the two letters, neither what it becomes nor the letter is in the keyword
  by_cases hdotted : '\u0130' ∈ w
  · have hdot : '\u0307' ∈ lower '\u0130' := by decide
    exact hneither hdotted hdot (fun h => absurd (hletter _ h).1 (by decide))
      fun h => absurd (hletter _ h).1 (by decide)
  · by_cases hkelvin : '\u212a' ∈ w
    · have hk' : 'k' ∈ lower '\u212a' := by decide
      exact hneither hkelvin hk' (fun h => (hletter _ h).2 rfl)
        fun h => absurd (hletter _ h).1 (by decide)
    · rw [flatMap_lower hdotted hkelvin, Spells]

theorem IsColorWord.flatMap_lower (h : IsColorWord w) : w.flatMap lower = w.map Char.toLower := by
  have hno {c : Char} (hc : c ≠ '#') (hd : isHexDigit c ≠ true) : c ∉ w := by
    obtain ⟨digits, rfl, -, hall⟩ := h
    exact fun hm => (List.mem_cons.mp hm).elim hc fun hm => hd (hall c hm)
  exact Style.flatMap_lower (hno (by decide) (by decide)) (hno (by decide) (by decide))

theorem exists_snoc {P : Text → Prop} : (∃ v ∈ ws ++ [w], P v) ↔ (∃ v ∈ ws, P v) ∨ P w := by
  simp only [List.mem_append, List.mem_singleton, or_and_right, exists_or, exists_eq_left]

theorem forall_snoc {P : Text → Prop} : (∀ v ∈ ws ++ [w], P v) ↔ (∀ v ∈ ws, P v) ∧ P w := by
  rw [List.forall_mem_append, List.forall_mem_singleton]

theorem LeavesColor.of_color (hw : IsColorWord w) :
    LeavesColor (ws ++ [w]) (some (w.map Char.toLower)) :=
  .kept rfl hw nofun nofun

theorem LeavesColor.of_none (h : LeavesColor ws color) (hw : Spells "none" w) :
    LeavesColor (ws ++ [w]) none := by
  have hcolor : ¬ IsColorWord w := hw.not_isColorWord nofun
  cases h with
  | absent h => exact .absent (forall_snoc.mpr ⟨h, hcolor⟩)
  | cleared hws hv hlast hnone | kept hws hv hlast hnone =>
      subst hws
      rw [List.append_assoc, List.cons_append]
      exact .cleared rfl hv (forall_snoc.mpr ⟨hlast, hcolor⟩) (exists_snoc.mpr (.inr hw))

theorem LeavesColor.of_other (h : LeavesColor ws color) (hcolor : ¬ IsColorWord w)
    (hnone : ¬ Spells "none" w) : LeavesColor (ws ++ [w]) color := by
  cases h with
  | absent h => exact .absent (forall_snoc.mpr ⟨h, hcolor⟩)
  | cleared hws hv hlast hn =>
      subst hws
      rw [List.append_assoc, List.cons_append]
      exact .cleared rfl hv (forall_snoc.mpr ⟨hlast, hcolor⟩) (exists_snoc.mpr (.inl hn))
  | kept hws hv hlast hn =>
      subst hws
      rw [List.append_assoc, List.cons_append]
      exact .kept rfl hv (forall_snoc.mpr ⟨hlast, hcolor⟩) (forall_snoc.mpr ⟨hn, hnone⟩)

inductive Adds (s : Style) (w : Text) : Style → Prop
  | bold (h : Spells "bold" w) : Adds s w { s with bold := true }
  | italic (h : Spells "italic" w) : Adds s w { s with italic := true }
  | none (h : Spells "none" w) : Adds s w { s with color := none }
  | color (h : IsColorWord w) : Adds s w { s with color := some (w.map Char.toLower) }

theorem Adds.isStyleWord (h : Adds s w s') : IsStyleWord w := by
  cases h with
  | bold h => exact .bold h
  | italic h => exact .italic h
  | none h => exact .none h
  | color h => exact .color h

theorem addWord?_cases (s : Style) (w : Text) :
    (∃ s', s.addWord? w = some s' ∧ Adds s w s') ∨ s.addWord? w = none ∧ ¬ IsStyleWord w := by
  have hbold : w.flatMap lower = "bold".toList ↔ _ := flatMap_lower_eq_iff rfl
  have hitalic : w.flatMap lower = "italic".toList ↔ _ := flatMap_lower_eq_iff rfl
  have hnone : w.flatMap lower = "none".toList ↔ _ := flatMap_lower_eq_iff rfl
  unfold addWord?
  dsimp only
  split
  · next hw => exact .inl ⟨_, rfl, .bold (hbold.mp hw)⟩
  · next hb =>
      split
      · next hw => exact .inl ⟨_, rfl, .italic (hitalic.mp hw)⟩
      · next hi =>
          split
          · next hw => exact .inl ⟨_, rfl, .none (hnone.mp hw)⟩
          · next hn =>
              split
              · next hw =>
                  rw [isColor_iff] at hw
                  rw [hw.flatMap_lower]
                  exact .inl ⟨_, rfl, .color hw⟩
              · next hc =>
                  refine .inr ⟨rfl, fun h => ?_⟩
                  cases h with
                  | bold h => exact hb (hbold.mpr h)
                  | italic h => exact hi (hitalic.mpr h)
                  | none h => exact hn (hnone.mpr h)
                  | color h => exact hc (isColor_iff.mpr h)

theorem addWord_eq_error_iff : s.addWord spec w = .error problem ↔
    ¬ IsStyleWord w ∧ problem = .unknownStyleWord w spec := by
  rw [addWord]
  rcases addWord?_cases s w with ⟨s', he, ha⟩ | ⟨he, hw⟩
  · rw [he]
    exact iff_of_false nofun fun h => h.1 ha.isStyleWord
  · rw [he]
    exact ⟨fun h => ⟨hw, (Except.error.inj h).symm⟩, fun h => h.2 ▸ rfl⟩

theorem addWord_eq_ok (h : s.addWord spec w = .ok s') : Adds s w s' := by
  rw [addWord] at h
  rcases addWord?_cases s w with ⟨t, he, ha⟩ | ⟨he, -⟩
  · rw [he] at h
    exact Except.ok.inj h ▸ ha
  · rw [he] at h
    cases h

theorem Describes.snoc (h : Describes ws s) (ha : Adds s w s') : Describes (ws ++ [w]) s' := by
  obtain ⟨hvalid, hbold, hitalic, hcolor⟩ := h
  cases ha with
  | bold hw =>
      have hno : ¬ Spells "italic" w := hw.ne (by decide)
      exact {
        valid := forall_snoc.mpr ⟨hvalid, .bold hw⟩
        bold := iff_of_true rfl (exists_snoc.mpr (.inr hw))
        italic := by rw [exists_snoc, or_iff_left hno, hitalic]
        color := hcolor.of_other (hw.not_isColorWord nofun) (hw.ne (by decide)) }
  | italic hw =>
      have hno : ¬ Spells "bold" w := hw.ne (by decide)
      exact {
        valid := forall_snoc.mpr ⟨hvalid, .italic hw⟩
        bold := by rw [exists_snoc, or_iff_left hno, hbold]
        italic := iff_of_true rfl (exists_snoc.mpr (.inr hw))
        color := hcolor.of_other (hw.not_isColorWord nofun) (hw.ne (by decide)) }
  | none hw =>
      have hbold' : ¬ Spells "bold" w := hw.ne (by decide)
      have hitalic' : ¬ Spells "italic" w := hw.ne (by decide)
      exact {
        valid := forall_snoc.mpr ⟨hvalid, .none hw⟩
        bold := by rw [exists_snoc, or_iff_left hbold', hbold]
        italic := by rw [exists_snoc, or_iff_left hitalic', hitalic]
        color := hcolor.of_none hw }
  | color hw =>
      have hbold' : ¬ Spells "bold" w := hw.not_spells nofun
      have hitalic' : ¬ Spells "italic" w := hw.not_spells nofun
      exact {
        valid := forall_snoc.mpr ⟨hvalid, .color hw⟩
        bold := by rw [exists_snoc, or_iff_left hbold', hbold]
        italic := by rw [exists_snoc, or_iff_left hitalic', hitalic]
        color := .of_color hw }

theorem describes_nil : Describes [] plain where
  valid := nofun
  bold := iff_of_false nofun nofun
  italic := iff_of_false nofun nofun
  color := .absent nofun

theorem describes_ofSpec (h : ofSpec spec = .ok s) : Describes (words spec) s :=
  foldlM_snoc_induction describes_nil (fun _ _ _ _ hd h => hd.snoc (addWord_eq_ok h)) h

theorem ofSpec_eq_error_iff : ofSpec spec = .error problem ↔
    ∃ before word after, words spec = before ++ word :: after ∧ (∀ w ∈ before, IsStyleWord w) ∧
      ¬ IsStyleWord word ∧ problem = .unknownStyleWord word spec := by
  have hstep (s w problem) : addWord spec s w = .error problem ↔
      ¬ IsStyleWord w ∧ problem = .unknownStyleWord w spec := addWord_eq_error_iff
  have hvalid (w : Text) : (∀ problem : ConfigProblem, ¬ (¬ IsStyleWord w ∧
      problem = .unknownStyleWord w spec)) ↔ IsStyleWord w := by simp
  rw [ofSpec, foldlM_eq_error_iff hstep]
  simp only [hvalid]

end PioSyntax.Style

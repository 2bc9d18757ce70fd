import PioSyntax.CommandLine.Arguments
import PioSyntax.Proofs.Except

namespace PioSyntax.CommandLine

def InputFrom (d : Draft) (items : List Item) (d' : Draft) : Prop :=
  d'.input = d.input ∨ ∃ text, .word text ∈ items ∧ d'.input = some text

variable {words : List Text} {word text : Text} {items items' : List Item} {d d₁ d' : Draft}
variable {s : Switch} {a : Arguments}

theorem itemOf_eq_word (h : itemOf word = .ok (.word text)) : text = word := by
  unfold itemOf at h
  split at h
  · cases h; rfl
  · split at h
    · cases h
    · dsimp only at h
      split at h
      · cases h
      · split at h
        · cases h
        · split at h
          · cases h; rfl
          · cases h
        · cases h

theorem mem_of_word_mem (h : itemsOf words = .ok items) (hm : .word text ∈ items) :
    text ∈ words := by
  induction words generalizing items with
  | nil => cases h; cases hm
  | cons word words ih =>
      rw [itemsOf] at h
      split at h
      · obtain rfl := Except.ok.inj h
        have hm : text ∈ words := by simpa using hm
        exact List.mem_cons_of_mem _ hm
      · obtain ⟨item, hi, h⟩ := bind_eq_ok_iff.mp h
        obtain ⟨rest, hr, h⟩ := bind_eq_ok_iff.mp h
        obtain rfl := Except.ok.inj h
        rcases List.mem_cons.mp hm with rfl | hm
        · rw [itemOf_eq_word hi]
          exact List.mem_cons_self
        · exact List.mem_cons_of_mem _ (ih hr hm)

theorem Draft.input_turnOn (h : d.turnOn s = .ok d') : d'.input = d.input := by
  cases s <;> cases h <;> rfl

theorem Draft.input_setValue (h : d.setValue s word = .ok d') : d'.input = d.input := by
  unfold setValue at h
  dsimp only at h
  split at h
  · cases h; rfl
  · cases h; rfl
  · cases h; rfl
  · cases h; rfl
  · split at h
    · cases h; rfl
    · cases h
  · cases h

theorem InputFrom.skip (h : InputFrom d₁ items d') (hd : d₁.input = d.input)
    (hs : items ⊆ items') : InputFrom d items' d' :=
  h.imp (·.trans hd) fun ⟨text, hm, he⟩ => ⟨text, hs hm, he⟩

theorem InputFrom.take (h : InputFrom (d.setInput text) items d') (hm : .word text ∈ items')
    (hs : items ⊆ items') : InputFrom d items' d' := by
  rcases h with he | ⟨other, ho, he⟩
  · exact .inr ⟨text, hm, he⟩
  · exact .inr ⟨other, hs ho, he⟩

theorem inputFrom_collect (h : collect d items = .ok d') : InputFrom d items d' := by
  fun_induction collect d items with
  | case1 d =>
      obtain rfl := Except.ok.inj h
      exact .inl rfl
  | case2 d text items hd ih | case5 d text items hd ih => exact (ih h).take (by simp) (by simp)
  | case3 d text items hrest hd ih => exact (ih h).take (by simp) (by simp)
  | case4 d text items input hd ih => exact (ih h).skip rfl (by simp)
  | case6 d items hword ih | case7 d text items ih => exact (ih h).skip rfl (by simp)
  | case9 d u items value hv hhelp d₁ hd ih => exact (ih h).skip (Draft.input_setValue hd) (by simp)
  | case11 d u hv hs value items d₁ hd ih => exact (ih h).skip (Draft.input_setValue hd) (by simp)
  | case14 d u items hv hs d₁ hd ih => exact (ih h).skip (Draft.input_turnOn hd) (by simp)
  | case8 | case10 | case12 | case13 | case15 => cases h

theorem input_mem_words (h : Arguments.ofWords words = .ok a) : a.input ∈ words := by
  unfold Arguments.ofWords at h
  split at h
  · cases h
  · next items hi =>
      split at h
      · next d hd =>
          unfold Draft.finish at h
          split at h
          · cases h
          · next input hinput _ =>
              obtain rfl := Except.ok.inj h
              rcases inputFrom_collect hd with he | ⟨text, hm, he⟩
              · rw [hinput] at he; cases he
              · rw [hinput] at he
                cases he
                exact mem_of_word_mem hi hm
          · cases h
      · cases h

end PioSyntax.CommandLine

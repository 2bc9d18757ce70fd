namespace PioSyntax

variable {ε ε' σ α β : Type} {x : Except ε α} {f : α → Except ε β} {g : ε → ε'} {e : ε} {e' : ε'}
variable {a : α} {b : β}

theorem bind_eq_ok_iff : x >>= f = .ok b ↔ ∃ a, x = .ok a ∧ f a = .ok b := by
  cases x with
  | error e =>
      refine iff_of_false nofun ?_
      rintro ⟨_, ha, _⟩
      cases ha
  | ok a =>
      constructor
      · exact fun h => ⟨a, rfl, h⟩
      · rintro ⟨_, ha, h⟩
        exact Except.ok.inj ha ▸ h

theorem bind_eq_error_iff :
    x >>= f = .error e ↔ x = .error e ∨ ∃ a, x = .ok a ∧ f a = .error e := by
  cases x with
  | error e' =>
      constructor
      · rintro ⟨⟩
        exact .inl rfl
      · rintro (⟨⟨⟩⟩ | ⟨_, ha, _⟩)
        · rfl
        · cases ha
  | ok a =>
      constructor
      · exact fun h => .inr ⟨a, rfl, h⟩
      · rintro (h | ⟨_, ha, h⟩)
        · cases h
        · exact Except.ok.inj ha ▸ h

theorem mapError_eq_ok_iff : x.mapError g = .ok a ↔ x = .ok a := by
  cases x with
  | error e => exact iff_of_false nofun nofun
  | ok b => exact ⟨fun h => Except.ok.inj h ▸ rfl, fun h => Except.ok.inj h ▸ rfl⟩

theorem mapError_eq_error_iff : x.mapError g = .error e' ↔ ∃ e, x = .error e ∧ g e = e' := by
  cases x with
  | error e =>
      constructor
      · exact fun h => ⟨e, rfl, Except.error.inj h⟩
      · rintro ⟨_, he, rfl⟩
        exact Except.error.inj he ▸ rfl
  | ok b =>
      refine iff_of_false nofun ?_
      rintro ⟨_, he, _⟩
      cases he

theorem toOption_eq_some_iff : x.toOption = some a ↔ x = .ok a := by
  cases x with
  | error e => exact iff_of_false nofun nofun
  | ok b => exact ⟨fun h => congrArg _ (Option.some.inj h), fun h => h ▸ rfl⟩

/-- What holds before any step, and goes from the steps so far to one more, holds at the end of a
fold of the steps in it. -/
theorem foldlM_snoc_induction {f : σ → α → Except ε σ} {P : List α → σ → Prop} {s : σ}
    (hnil : P [] s) (hsnoc : ∀ l a t t', P l t → f t a = .ok t' → P (l ++ [a]) t')
    {l : List α} {t : σ} (h : l.foldlM f s = .ok t) : P l t := by
  have hfrom : ∀ l done s, P done s → l.foldlM f s = .ok t → P (done ++ l) t := by
    intro l
    induction l with
    | nil =>
        intro done s hs h
        rw [List.append_nil]
        exact Except.ok.inj h ▸ hs
    | cons a l ih =>
        intro done s hs h
        rw [List.foldlM_cons] at h
        obtain ⟨s', hs', h⟩ := bind_eq_ok_iff.mp h
        rw [List.append_cons]
        exact ih _ s' (hsnoc done a s s' hs hs') h
  exact hfrom l [] s hnil h

/-- What each step keeps is kept by a fold that may fail. -/
theorem foldlM_invariant {f : σ → α → Except ε σ} {P : σ → Prop}
    (hf : ∀ s a s', P s → f s a = .ok s' → P s') {l : List α} {s s' : σ} (hs : P s)
    (h : l.foldlM f s = .ok s') : P s' :=
  foldlM_snoc_induction (P := fun _ s => P s) hs (fun _ a s s' => hf s a s') h

/-- If it does not hang on the state how a step fails, a fold fails as the first step that does. -/
theorem foldlM_eq_error_iff {f : σ → α → Except ε σ} {Fails : α → ε → Prop}
    (hf : ∀ s a e, f s a = .error e ↔ Fails a e) {l : List α} {s : σ} :
    l.foldlM f s = .error e ↔ ∃ before a after, l = before ++ a :: after ∧
      (∀ b ∈ before, ∀ e, ¬ Fails b e) ∧ Fails a e := by
  induction l generalizing s with
  | nil => exact iff_of_false nofun (by simp)
  | cons a l ih =>
      rw [List.foldlM_cons, bind_eq_error_iff]
      constructor
      · rintro (h | ⟨t, ht, h⟩)
        · exact ⟨[], a, l, rfl, by simp, (hf s a e).mp h⟩
        · obtain ⟨before, b, after, rfl, hbefore, hb⟩ := ih.mp h
          have ha (e : ε) : ¬ Fails a e := fun he => by
            rw [(hf s a e).mpr he] at ht
            cases ht
          exact ⟨a :: before, b, after, rfl, List.forall_mem_cons.mpr ⟨ha, hbefore⟩, hb⟩
      · rintro ⟨before, b, after, hl, hbefore, hb⟩
        cases before with
        | nil =>
            obtain ⟨rfl, rfl⟩ := List.cons.inj hl
            exact .inl ((hf s a e).mpr hb)
        | cons d before =>
            obtain ⟨rfl, rfl⟩ := List.cons.inj hl
            rw [List.forall_mem_cons] at hbefore
            cases ha : f s a with
            | error e' => exact absurd ((hf s a e').mp ha) (hbefore.1 e')
            | ok t => exact .inr ⟨t, rfl, ih.mpr ⟨before, b, after, rfl, hbefore.2, hb⟩⟩

theorem mapError_foldlM (g : ε → ε') (f : σ → α → Except ε σ) (l : List α) (s : σ) :
    (l.foldlM f s).mapError g = l.foldlM (fun s a => (f s a).mapError g) s := by
  induction l generalizing s with
  | nil => rfl
  | cons a l ih =>
      rw [List.foldlM_cons, List.foldlM_cons]
      cases f s a with
      | error e => rfl
      | ok t => exact ih t

end PioSyntax

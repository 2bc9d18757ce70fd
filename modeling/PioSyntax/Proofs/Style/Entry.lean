import PioSyntax.Proofs.Except
import PioSyntax.Style.Table

namespace PioSyntax

variable {key spec : Text} {c : Category} {problem : ConfigProblem}

namespace Category

theorem ofName?_eq_some_iff : ofName? key = some c ↔ key = c.name := by
  constructor
  · intro h
    have hname := List.find?_some h
    exact (of_decide_eq_true hname).symm
  · rintro rfl
    exact ofName?_name c

theorem name_injective : Function.Injective name := fun c c' h =>
  Option.some.inj ((ofName?_name c).symm.trans (h ▸ ofName?_name c'))

theorem ofUserName_eq_ok_iff : ofUserName key = .ok c ↔ lookupKey key = c.name := by
  rw [← ofName?_eq_some_iff, ofUserName]
  cases ofName? (lookupKey key) <;> simp

theorem ofUserName_eq_error_iff : ofUserName key = .error problem ↔
    (∀ c : Category, lookupKey key ≠ c.name) ∧ problem = .unknownCategory key := by
  have hnone : ofName? (lookupKey key) = none ↔ ∀ c : Category, lookupKey key ≠ c.name := by
    simp only [Option.eq_none_iff_forall_ne_some, ne_eq, ofName?_eq_some_iff]
  rw [← hnone, ofUserName]
  cases ofName? (lookupKey key) <;> simp [eq_comm]

end Category

namespace StyleTable

variable {t t' : StyleTable}

theorem addEntry_eq_ok_iff : t.addEntry key spec = .ok t' ↔ ∃ style c,
    Style.ofSpec spec = .ok style ∧ Category.lookupKey key = c.name ∧ t' = t.set c style := by
  simp only [addEntry, bind_eq_ok_iff, Category.ofUserName_eq_ok_iff]
  constructor
  · rintro ⟨style, hs, c, hc, h⟩
    exact ⟨style, c, hs, hc, (Except.ok.inj h).symm⟩
  · rintro ⟨style, c, hs, hc, rfl⟩
    exact ⟨style, hs, c, hc, rfl⟩

theorem addEntry_eq_error_iff : t.addEntry key spec = .error problem ↔
    Style.ofSpec spec = .error problem ∨ ∃ style, Style.ofSpec spec = .ok style ∧
      (∀ c : Category, Category.lookupKey key ≠ c.name) ∧ problem = .unknownCategory key := by
  simp only [addEntry, bind_eq_error_iff]
  refine or_congr_right (exists_congr fun style => and_congr_right fun _ => ?_)
  rw [← Category.ofUserName_eq_error_iff]
  refine or_iff_left ?_
  rintro ⟨c, -, h⟩
  cases h

end StyleTable

end PioSyntax

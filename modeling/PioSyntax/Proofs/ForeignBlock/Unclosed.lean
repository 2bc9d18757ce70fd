import PioSyntax.Proofs.ForeignBlock.Lines
import PioSyntax.Proofs.ForeignBlock.Markers

namespace PioSyntax.ForeignBlock

open Text

variable {source : Text} {stop start : Nat} {blocks : List ForeignBlock} {b : ForeignBlock}

theorem isLanguage_of_mem_find (hb : b ∈ find source) : IsLanguage b.language := by
  obtain ⟨_, ⟨_, _, -, -, hl, -⟩, -⟩ := (find_lines source hb).1.isHead
  exact hl

theorem Placed.unclosed_last (h : Placed stop start blocks) :
    (∀ b ∈ blocks, b.terminated = true) ∨
      ∃ closed last, blocks = closed ++ [last] ∧ (∀ b ∈ closed, b.terminated = true) ∧
        last.terminated = false := by
  induction h with
  | nil => exact .inl (by simp)
  | unclosed => exact .inr ⟨[], _, rfl, by simp, rfl⟩
  | @closed start language head body tail blocks hs hh hb hn ht hm he rest ih =>
      rcases ih with hall | ⟨closed, last, rfl, hc, hl⟩
      · exact .inl (List.forall_mem_cons.mpr ⟨rfl, hall⟩)
      · exact .inr ⟨_ :: closed, last, rfl, List.forall_mem_cons.mpr ⟨rfl, hc⟩, hl⟩

end PioSyntax.ForeignBlock

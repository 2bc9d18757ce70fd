import PioSyntax.Proofs.Style.Entry
import PioSyntax.Proofs.Style.Words
import PioSyntax.Proofs.Text.Hexadecimal
import PioSyntax.Proofs.Text.Runs

namespace PioSyntax

open Text

namespace Style

variable {s s' : Style} {word spec color : Text} {a b : Char}

def IsWritten (s : Style) : Prop := ∀ color ∈ s.color, isColor color = true

theorem isColor_lower (h : isColor color = true) : isColor (color.map Char.toLower) = true := by
  obtain ⟨digits, rfl, hlen, hd⟩ := isColor_iff.mp h
  refine isColor_iff.mpr ⟨digits.map Char.toLower, rfl, by rw [List.length_map, hlen], ?_⟩
  rw [List.forall_mem_map]
  intro d hm
  exact forall_isHexDigit (P := fun d => isHexDigit d.toLower = true) (by decide) (hd d hm)

theorem isWritten_plain : plain.IsWritten := nofun

theorem isWritten_addWord (hs : s.IsWritten) (h : s.addWord spec word = .ok s') : s'.IsWritten := by
  cases addWord_eq_ok h with
  | bold | italic => exact hs
  | none => nofun
  | color hw =>
      rintro color ⟨⟩
      exact isColor_lower (isColor_iff.mpr hw)

theorem isWritten_ofSpec (h : ofSpec spec = .ok s) : s.IsWritten :=
  foldlM_invariant (fun _ _ _ hs h => isWritten_addWord hs h) isWritten_plain h

end Style

namespace StyleTable

variable {t t' : StyleTable} {name spec : Text}

theorem isWritten_default (c : Category) : (default c).IsWritten := by
  cases c <;> rintro color ⟨⟩ <;> rfl

theorem isWritten_addEntry (ht : ∀ c, (t c).IsWritten) (h : t.addEntry name spec = .ok t') :
    ∀ c, (t' c).IsWritten := by
  obtain ⟨style, category, hs, -, rfl⟩ := addEntry_eq_ok_iff.mp h
  intro c
  rw [set]
  split
  · exact Style.isWritten_ofSpec hs
  · exact ht c

theorem isWritten_resolve {overrides : List Override} {path : Option Path}
    (h : resolve overrides path = .ok t) : ∀ c, (t c).IsWritten := by
  refine foldlM_invariant (P := fun t : StyleTable => ∀ c, (t c).IsWritten) ?_ isWritten_default h
  intro t o t' ht h
  unfold override at h
  dsimp only at h
  split at h
  · cases h
  · exact isWritten_addEntry ht (mapError_eq_ok_iff.mp h)

end StyleTable

end PioSyntax

import PioSyntax.Proofs.Text.Runs
import PioSyntax.Text.Whitespace

namespace PioSyntax.Text

inductive Spaced : List Text → Text → Prop
  | nil : Spaced [] []
  | space {ws : List Text} {text : Text} {c : Char} (hc : isWhitespace c = true)
      (h : Spaced ws text) : Spaced ws (c :: text)
  | word {w text : Text} {ws : List Text} (hw : w ≠ []) (hall : ∀ c ∈ w, isWhitespace c = false)
      (hstop : Stops (fun c => !isWhitespace c) text) (h : Spaced ws text) :
      Spaced (w :: ws) (w ++ text)

variable {w text : Text} {ws : List Text} {c : Char}

theorem words_cons_space (hc : isWhitespace c = true) : words (c :: text) = words text := by
  rw [words, spacedPieces, if_pos hc]
  rfl

theorem exists_spacedPieces (h : Stops (fun c => !isWhitespace c) text) :
    ∃ pieces, spacedPieces text = [] :: pieces := by
  cases text with
  | nil => exact ⟨[], rfl⟩
  | cons c text =>
      have hc : isWhitespace c = true := by simpa using stops_cons.mp h
      exact ⟨_, by rw [spacedPieces, if_pos hc]⟩

theorem spacedPieces_append (hall : ∀ c ∈ w, isWhitespace c = false) {piece : Text}
    {pieces : List Text} (h : spacedPieces text = piece :: pieces) :
    spacedPieces (w ++ text) = (w ++ piece) :: pieces := by
  induction w with
  | nil => exact h
  | cons c w ih =>
      rw [List.forall_mem_cons] at hall
      rw [List.cons_append, spacedPieces, hall.1, ih hall.2]
      rfl

theorem words_append (hw : w ≠ []) (hall : ∀ c ∈ w, isWhitespace c = false)
    (hstop : Stops (fun c => !isWhitespace c) text) : words (w ++ text) = w :: words text := by
  obtain ⟨pieces, hp⟩ := exists_spacedPieces hstop
  rw [words, words, spacedPieces_append hall hp, hp, List.append_nil,
    List.filter_cons_of_pos (by simpa using hw), List.filter_cons_of_neg (by simp)]

theorem spaced_words (text : Text) : Spaced (words text) text := by
  induction hn : text.length using Nat.strongRecOn generalizing text with
  | ind n ih =>
      cases text with
      | nil => exact .nil
      | cons c text =>
          by_cases hc : isWhitespace c = true
          · rw [words_cons_space hc]
            exact .space hc (ih text.length (by rw [← hn]; exact Nat.lt_succ_self _) text rfl)
          · -- the word goes on to the next white space, and the rest of the text is shorter
            obtain ⟨w, rest, rfl, hw, hstop⟩ := exists_run (fun c => !isWhitespace c) text
            have hall : ∀ d ∈ c :: w, isWhitespace d = false :=
              List.forall_mem_cons.mpr ⟨Bool.eq_false_iff.mpr hc, by simpa using hw⟩
            have hlt : rest.length < n := by
              rw [← hn, List.length_cons, List.length_append]
              omega
            rw [← List.cons_append, words_append (List.cons_ne_nil c w) hall hstop]
            exact .word (List.cons_ne_nil c w) hall hstop (ih _ hlt rest rfl)

/-- There is one way to take a text for spaced words. -/
theorem spaced_iff : Spaced ws text ↔ ws = words text := by
  constructor
  · intro h
    induction h with
    | nil => rfl
    | space hc _ ih => rw [words_cons_space hc, ih]
    | word hw hall hstop _ ih => rw [words_append hw hall hstop, ih]
  · rintro rfl
    exact spaced_words text

end PioSyntax.Text

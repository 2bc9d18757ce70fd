import PioSyntax.Proofs.Style.Written
import PioSyntax.Proofs.Text.Decimal

namespace PioSyntax

open Text

def Terminal.isParameter (c : Char) : Bool := c.isDigit || c == ';'

theorem Text.exists_join_cons (separator piece : Text) (pieces : List Text) :
    ∃ rest, join separator (piece :: pieces) = piece ++ rest := by
  cases pieces with
  | nil => exact ⟨[], by simp [join]⟩
  | cons next pieces =>
      exact ⟨separator ++ join separator (next :: pieces), by
        rw [join, List.intercalate_cons_cons, List.append_assoc, join]⟩

namespace Style

open Terminal

variable {s : Style} {color : Text} {a b : Char}

theorem exists_hexDigit? (h : isHexDigit a = true) : ∃ n, hexDigit? a = some n := by
  have hsome : (hexDigit? a).isSome = true :=
    forall_isHexDigit (P := fun d => (hexDigit? d).isSome = true) (by decide) h
  exact Option.isSome_iff_exists.mp hsome

theorem isNumberSpace_of_isHexDigit (h : isHexDigit a = true) : isNumberSpace a = false :=
  forall_isHexDigit (P := fun d => isNumberSpace d = false) (by decide) h

theorem ne_sign_of_isHexDigit (h : isHexDigit a = true) : a ≠ '-' ∧ a ≠ '+' :=
  forall_isHexDigit (P := fun d => d ≠ '-' ∧ d ≠ '+') (by decide) h

theorem channel_pair {n : Nat} (ha : isHexDigit a = true) (hb : isHexDigit b = true)
    (hn : hexDigits? [a, b] = some n) : channel [a, b] = .ok (n : Int) := by
  obtain ⟨hminus, hplus⟩ := ne_sign_of_isHexDigit ha
  have hchannel : channel? [a, b] = some (n : Int) := by
    simp [channel?, isNumberSpace_of_isHexDigit ha, isNumberSpace_of_isHexDigit hb, hminus, hplus,
      hn]
  rw [channel, hchannel]

theorem exists_channel (ha : isHexDigit a = true) (hb : isHexDigit b = true) :
    ∃ n : Nat, channel [a, b] = .ok (n : Int) := by
  obtain ⟨m, hm⟩ := exists_hexDigit? ha
  obtain ⟨n, hn⟩ := exists_hexDigit? hb
  exact ⟨16 * m + n, channel_pair ha hb (by simp [hexDigits?, hm, hn])⟩

theorem colorParameter_pairs {c d e f : Char} {red green blue : Nat}
    (hr : channel [a, b] = .ok (red : Int)) (hg : channel [c, d] = .ok (green : Int))
    (hb : channel [e, f] = .ok (blue : Int)) : colorParameter ['#', a, b, c, d, e, f] =
      .ok ("38;2;" ++ join ";" [ofNat red, ofNat green, ofNat blue]) := by
  change (do
    let red ← channel [a, b]
    let green ← channel [c, d]
    let blue ← channel [e, f]
    return ("38;2;" ++ join ";" [ofInt red, ofInt green, ofInt blue] : Text)) = _
  rw [hr, hg, hb]
  rfl

theorem exists_colorParameter (h : isColor color = true) : ∃ red green blue : Nat,
    colorParameter color = .ok ("38;2;" ++ join ";" [ofNat red, ofNat green, ofNat blue]) := by
  obtain ⟨digits, rfl, hlen, hd⟩ := isColor_iff.mp h
  match digits, hlen with
  | [a, b, c, d, e, f], _ =>
      simp only [List.forall_mem_cons] at hd
      obtain ⟨red, hr⟩ := exists_channel hd.1 hd.2.1
      obtain ⟨green, hg⟩ := exists_channel hd.2.2.1 hd.2.2.2.1
      obtain ⟨blue, hb⟩ := exists_channel hd.2.2.2.2.1 hd.2.2.2.2.2.1
      exact ⟨red, green, blue, colorParameter_pairs hr hg hb⟩

theorem mem_onlyIf {condition : Bool} {text piece : Text} (h : piece ∈ onlyIf condition text) :
    piece = text := by
  unfold onlyIf at h
  split at h
  · exact List.mem_singleton.mp h
  · cases h

theorem ansi_of_color {parameter : Text} (hc : s.color? = some color)
    (hp : colorParameter color = .ok parameter) :
    s.ansi = .ok (join ";" (onlyIf s.bold "1" ++ onlyIf s.italic "3" ++ [parameter])) := by
  rw [ansi, hc]
  change (colorParameter color >>= fun p => pure (some p)) >>= _ = _
  rw [hp]
  rfl

def IsParameter (piece : Text) : Prop :=
  piece.head?.any (fun c => c == '1' || c == '3') = true ∧
    ∀ c ∈ piece, isParameter c = true

theorem isParameter_color (red green blue : Nat) :
    IsParameter ("38;2;" ++ join ";" [ofNat red, ofNat green, ofNat blue]) := by
  refine ⟨rfl, fun c hc => ?_⟩
  rcases List.mem_append.mp hc with hc | hc
  · exact List.all_eq_true.mp (rfl : "38;2;".toList.all isParameter = true) c hc
  · rcases mem_join hc with hc | ⟨piece, hp, hc⟩
    · exact List.all_eq_true.mp (rfl : ";".toList.all isParameter = true) c hc
    · have hn : ∃ n, piece = ofNat n := by
        simp only [List.mem_cons, List.not_mem_nil, or_false] at hp
        rcases hp with rfl | rfl | rfl <;> exact ⟨_, rfl⟩
      obtain ⟨n, rfl⟩ := hn
      exact Bool.or_eq_true_iff.mpr (.inl (isDigit_of_mem_ofNat hc))

theorem exists_parameters (h : s.IsWritten) :
    ∃ pieces, s.ansi = .ok (join ";" pieces) ∧ ∀ piece ∈ pieces, IsParameter piece := by
  have hflags : ∀ piece ∈ onlyIf s.bold "1" ++ onlyIf s.italic "3", IsParameter piece := by
    intro piece hp
    rcases List.mem_append.mp hp with hp | hp
    · obtain rfl := mem_onlyIf hp
      exact ⟨rfl, List.all_eq_true.mp rfl⟩
    · obtain rfl := mem_onlyIf hp
      exact ⟨rfl, List.all_eq_true.mp rfl⟩
  cases hc : s.color? with
  | none =>
      refine ⟨onlyIf s.bold "1" ++ onlyIf s.italic "3" ++ [], ?_, by simpa using hflags⟩
      rw [ansi, hc]
      rfl
  | some color =>
      obtain ⟨hcolor, -⟩ := Option.filter_eq_some_iff.mp hc
      obtain ⟨red, green, blue, hp⟩ := exists_colorParameter (h color hcolor)
      refine ⟨_, ansi_of_color hc hp, fun piece hm => ?_⟩
      rcases List.mem_append.mp hm with hm | hm
      · exact hflags piece hm
      · obtain rfl := List.mem_singleton.mp hm
        exact isParameter_color red green blue

/-- The parameters of a style are numbers and semicolons, and never the zero that resets. -/
theorem exists_ansi (h : s.IsWritten) : ∃ parameters, s.ansi = .ok parameters ∧
    (∀ c ∈ parameters, isParameter c = true) ∧ parameters ≠ "0".toList := by
  obtain ⟨pieces, hansi, hp⟩ := exists_parameters h
  refine ⟨join ";" pieces, hansi, fun c hc => ?_, ?_⟩
  · rcases mem_join hc with hc | ⟨piece, hm, hc⟩
    · exact List.all_eq_true.mp (rfl : ";".toList.all isParameter = true) c hc
    · exact (hp piece hm).2 c hc
  · cases pieces with
    | nil => exact nofun
    | cons piece pieces =>
        obtain ⟨rest, hrest⟩ := exists_join_cons ";" piece pieces
        obtain ⟨hhead, -⟩ := hp piece List.mem_cons_self
        rw [hrest]
        cases piece with
        | nil => cases hhead
        | cons c piece =>
            intro hzero
            obtain rfl := (List.cons.inj hzero).1
            cases hhead

end Style
end PioSyntax

import PioSyntax.Proofs.ForeignBlock.Spelling
import PioSyntax.Proofs.Pattern.LineEnding

namespace PioSyntax.ForeignBlock

open Text Pattern

variable {line rest t source front final cr language : Text} {marker : Span}
variable {before : Option Char} {d : Char}

theorem eq_of_return (hd : d ≠ '\r') (hf : IsBlanks final) (hr : IsReturn cr)
    (h : line ++ ['\r'] = front ++ d :: (final ++ cr)) :
    cr = ['\r'] ∧ line = front ++ d :: final := by
  rcases hr with rfl | rfl
  · have hlast : '\r' ∈ d :: final := by
      apply List.mem_of_getLast?
      rw [← List.getLast?_append_of_ne_nil front (List.cons_ne_nil d final), ← List.append_nil final,
        ← h, List.getLast?_concat]
    rcases List.mem_cons.mp hlast with h | h
    · exact absurd h.symm hd
    · exact absurd (hf _ h) (by decide)
  · rw [← List.cons_append, ← List.append_assoc] at h
    exact ⟨rfl, List.append_cancel_right h⟩

theorem openingLine_return (h : '\r' ∉ line) :
    OpeningLine (line ++ ['\r']) language marker ↔ OpeningLine line language marker := by
  constructor
  · intro hline
    generalize hl : line ++ ['\r'] = l at hline
    cases hline with
    | @mk indent gap _ space final cr hi hg hlang hs hf hr =>
        have hfront : line ++ ['\r'] =
            (indent ++ '%' :: (gap ++ (language ++ space))) ++ '{' :: (final ++ cr) := by
          simpa using hl
        obtain ⟨-, rfl⟩ := eq_of_return (by decide) hf hr hfront
        have hopening := OpeningLine.mk hi hg hlang hs hf (.inl rfl)
        simpa using hopening
  · intro hline
    cases hline with
    | @mk indent gap _ space final cr hi hg hlang hs hf hr =>
        rcases hr with rfl | rfl
        · have hopening := OpeningLine.mk hi hg hlang hs hf (.inr rfl)
          simpa using hopening
        · simp at h

theorem closingLine_return (h : '\r' ∉ line) :
    ClosingLine (line ++ ['\r']) marker ↔ ClosingLine line marker := by
  constructor
  · intro hline
    generalize hl : line ++ ['\r'] = l at hline
    cases hline with
    | @mk indent final cr hi hf hr =>
        have hfront : line ++ ['\r'] = (indent ++ ['%']) ++ '}' :: (final ++ cr) := by
          simpa using hl
        obtain ⟨-, rfl⟩ := eq_of_return (by decide) hf hr hfront
        have hclosing := ClosingLine.mk hi hf (.inl rfl)
        simpa using hclosing
  · intro hline
    cases hline with
    | @mk indent final cr hi hf hr =>
        rcases hr with rfl | rfl
        · have hclosing := ClosingLine.mk hi hf (.inr rfl)
          simpa using hclosing
        · simp at h

theorem length_returns_line (hl : '\n' ∉ line) :
    (Spelling.returns.text ((line ++ '\n' :: rest).take (line.length + 1))).length =
      line.length + 2 := by
  have htake : (line ++ '\n' :: rest).take (line.length + 1) = line ++ ['\n'] := by
    rw [List.append_cons, List.take_left' (by simp)]
  rw [htake, Spelling.returns_line hl, Spelling.text_nil]
  simp

theorem inner_returns (hl : '\n' ∉ line) (hm : marker.start < marker.stop ∧
    marker.stop ≤ line.length) : Spelling.returns.inner (line ++ t) marker = marker := by
  rw [Spelling.inner, Spelling.length_returns_take hl (by omega),
    Spelling.length_returns_take hl hm.2]

theorem returns_line_eq (hl : '\n' ∉ line) (rest : Text) :
    Spelling.returns.text (line ++ '\n' :: rest) =
      (line ++ ['\r']) ++ '\n' :: Spelling.returns.text rest := by
  rw [Spelling.returns_line hl, List.append_assoc, List.singleton_append]

theorem not_mem_return (hl : '\n' ∉ line) : '\n' ∉ line ++ ['\r'] := by
  simpa using hl

theorem opening?_returns (h : '\r' ∉ t) :
    opening? before (Spelling.returns.text t) =
      (opening? before t).map (Spelling.returns.opening id t) := by
  cases hb : startsLine before with
  | false =>
      rw [opening?_of_not_startsLine hb, opening?_of_not_startsLine hb]
      rfl
  | true =>
      obtain ⟨line, hl, rfl | ⟨rest, rfl⟩⟩ := Spelling.exists_line t
      · rw [Spelling.returns_eq_self hl]
        cases ho : opening? before t with
        | none => rfl
        | some o =>
            obtain ⟨hm, -, hsize⟩ := opening?_bounds ho
            have hinner := inner_returns (t := []) hl hm
            have hlen := Spelling.length_returns_take (s := []) hl hsize
            rw [List.append_nil] at hinner hlen
            rw [Option.map_some, Spelling.opening, hinner, hlen]
            rfl
      · have hr : '\r' ∉ line := fun hm => h (List.mem_append_left _ hm)
        have hends (s : Text) : LineEnds ('\n' :: s) := stops_cons.mpr rfl
        rw [returns_line_eq hl]
        by_cases ho : ∃ language marker, OpeningLine line language marker
        · obtain ⟨language, marker, ho⟩ := ho
          rw [opening?_complete hb ho (hends _),
            opening?_complete hb ((openingLine_return hr).mpr ho) (hends _), Option.map_some,
            Spelling.opening, inner_returns hl ho.bounds]
          simp only [List.length_cons, List.length_append, List.length_nil,
            Nat.min_eq_left (Nat.succ_pos _), length_returns_line hl]
          rfl
        · simp only [not_exists] at ho
          rw [opening?_eq_none hl (hends _) ho, opening?_eq_none (not_mem_return hl) (hends _)]
          · rfl
          · exact fun language marker h => ho language marker ((openingLine_return hr).mp h)

theorem closing?_returns (h : '\r' ∉ t) :
    closing? before (Spelling.returns.text t) =
      (closing? before t).map (Spelling.returns.closing t) := by
  cases hb : startsLine before with
  | false =>
      rw [closing?_of_not_startsLine hb, closing?_of_not_startsLine hb]
      rfl
  | true =>
      obtain ⟨line, hl, rfl | ⟨rest, rfl⟩⟩ := Spelling.exists_line t
      · rw [Spelling.returns_eq_self hl]
        cases hc : closing? before t with
        | none => rfl
        | some o =>
            obtain ⟨hm, -, hsize⟩ := closing?_bounds hc
            have hinner := inner_returns (t := []) hl hm
            have hlen := Spelling.length_returns_take (s := []) hl hsize
            rw [List.append_nil] at hinner hlen
            rw [Option.map_some, Spelling.closing, hinner, hlen]
      · have hr : '\r' ∉ line := fun hm => h (List.mem_append_left _ hm)
        have hends (s : Text) : LineEnds ('\n' :: s) := stops_cons.mpr rfl
        rw [returns_line_eq hl]
        by_cases hc : ∃ marker, ClosingLine line marker
        · obtain ⟨marker, hc⟩ := hc
          rw [closing?_complete hb hc (hends _),
            closing?_complete hb ((closingLine_return hr).mpr hc) (hends _), Option.map_some,
            Spelling.closing, inner_returns hl hc.bounds]
          simp only [List.length_cons, List.length_append, List.length_nil,
            Nat.min_eq_left (Nat.succ_pos _), length_returns_line hl]
        · simp only [not_exists] at hc
          rw [closing?_eq_none hl (hends _) hc, closing?_eq_none (not_mem_return hl) (hends _)]
          · rfl
          · exact fun marker h => hc marker ((closingLine_return hr).mp h)

theorem keepsBlocks_returns (h : '\r' ∉ source) : Spelling.returns.KeepsBlocks source id := by
  refine ⟨fun before t ht => ?_, fun before t ht => ?_, fun c s t hst hs ht => ?_⟩
  · rw [Spelling.returns_before]
    exact opening?_returns fun hm => h (ht hm)
  · rw [Spelling.returns_before]
    exact closing?_returns fun hm => h (ht hm)
  · obtain ⟨rfl, -⟩ := Spelling.eq_of_returns hst hs ht
    rfl

end PioSyntax.ForeignBlock

import PioSyntax.Proofs.Rule.Spelling

namespace PioSyntax

open Text

def Spelling.returns : Spelling where
  spell c := if c = '\n' then ['\r', '\n'] else [c]
  spell_ne_nil c := by split <;> simp

namespace Spelling

variable {s t line : Text} {c : Char} {n : Nat}

theorem returns_cons_newline (t : Text) : returns.text ('\n' :: t) = '\r' :: '\n' :: returns.text t :=
  rfl

theorem returns_cons (hc : c ≠ '\n') : returns.text (c :: t) = c :: returns.text t := by
  rw [text_cons]
  simp [returns, hc]

theorem returns_eq_self (h : '\n' ∉ t) : returns.text t = t := by
  induction t with
  | nil => rfl
  | cons c t ih =>
      rw [List.mem_cons, not_or] at h
      rw [returns_cons (Ne.symm h.1), ih h.2]

theorem length_returns (t : Text) : (returns.text t).length = t.length + t.count '\n' := by
  induction t with
  | nil => rfl
  | cons c t ih =>
      by_cases hc : c = '\n'
      · rw [hc, returns_cons_newline, List.count_cons_self]
        simp only [List.length_cons, ih]
        omega
      · rw [returns_cons hc, List.count_cons_of_ne hc]
        simp only [List.length_cons, ih]
        omega

theorem returns_before (c : Option Char) : returns.before c = c := by
  cases c with
  | none => rfl
  | some c =>
      by_cases hc : c = '\n'
      · simp [Spelling.before, returns, hc]
      · simp [Spelling.before, returns, hc]

theorem exists_line (t : Text) : ∃ line, '\n' ∉ line ∧
    (t = line ∨ ∃ rest, t = line ++ '\n' :: rest) := by
  obtain ⟨line, rest, rfl, hl, hr⟩ := exists_run (· != '\n') t
  refine ⟨line, fun h => by simpa using hl _ h, ?_⟩
  cases rest with
  | nil => exact .inl (List.append_nil line)
  | cons c rest =>
      obtain rfl : c = '\n' := by simpa using hr
      exact .inr ⟨rest, rfl⟩

theorem returns_line (h : '\n' ∉ line) (t : Text) :
    returns.text (line ++ '\n' :: t) = line ++ '\r' :: '\n' :: returns.text t := by
  rw [text_append, returns_eq_self h, returns_cons_newline]

theorem length_returns_take (h : '\n' ∉ line) (hn : n ≤ line.length) :
    (returns.text ((line ++ s).take n)).length = n := by
  have hline : '\n' ∉ line.take n := fun hm => h (List.mem_of_mem_take hm)
  rw [List.take_append_of_le_length hn, returns_eq_self hline, List.length_take,
    Nat.min_eq_left hn]

theorem eq_of_returns (h : returns.spell c = s ++ t) (hs : s ≠ []) (ht : t ≠ []) :
    s = ['\r'] ∧ t = ['\n'] := by
  obtain ⟨a, s, rfl⟩ := List.exists_cons_of_ne_nil hs
  obtain ⟨b, t, rfl⟩ := List.exists_cons_of_ne_nil ht
  by_cases hc : c = '\n'
  · have hspell : '\r' :: ['\n'] = a :: (s ++ b :: t) := by rwa [hc] at h
    obtain ⟨rfl, hrest⟩ := List.cons.inj hspell
    cases s with
    | nil => exact ⟨rfl, hrest.symm⟩
    | cons d s => simp at hrest
  · simp [returns, hc] at h

theorem takeWhile_returns {p : Char → Bool} (hn : p '\n' = false) (hr : p '\r' = false) :
    (returns.text t).takeWhile p = t.takeWhile p := by
  obtain ⟨line, hl, rfl | ⟨rest, rfl⟩⟩ := exists_line t
  · rw [returns_eq_self hl]
  · rw [returns_line hl, takeWhile_append_cons hr, takeWhile_append_cons hn]

end Spelling

namespace Pattern

variable {p : Pattern} {before : Option Char} {source taken rest line t : Text} {part : Span}
variable {hit : Hit}

theorem hit_returns (hr : p.recognise before line = some hit) (hl : '\n' ∉ line) :
    Spelling.returns.hit (line ++ t) hit = hit := by
  obtain ⟨taken, rest, part, rfl, rfl, ht⟩ := recognise_iff.mp hr
  have hlen : taken.length ≤ (taken ++ rest).length := by simp
  rw [Spelling.hit, Spelling.length_returns_take hl hlen]
  cases part with
  | none => rfl
  | some part =>
      have hstop := Nat.le_trans ht.part_le hlen
      have hstart := Nat.le_trans ht.part_start_le hstop
      rw [Option.map_some, Spelling.inner, Spelling.length_returns_take hl hstart,
        Spelling.length_returns_take hl hstop]

theorem within_returns (hp : p.Separates '\n') (c : Char) (s t rest : Text)
    (h : Spelling.returns.spell c = s ++ t) (hs : s ≠ []) (ht : t ≠ []) :
    p.recognise s.getLast? (t ++ rest) = none := by
  obtain ⟨-, rfl⟩ := Spelling.eq_of_returns h hs ht
  exact recognise_separator hp

/-- Patterns that see single lines see nothing of the carriage returns between them. -/
theorem keeps_returns (hn : p.Separates '\n') (hr : p.Separates '\r') (hc : p ≠ .comment) :
    Spelling.returns.Keeps source p := by
  refine ⟨fun _ _ _ => size_pos hn, ?_, within_returns hn⟩
  intro before t _
  rw [Spelling.returns_before]
  obtain ⟨line, hl, rfl | ⟨rest, rfl⟩⟩ := Spelling.exists_line t
  · rw [Spelling.returns_eq_self hl]
    cases h : p.recognise before t with
    | none => rfl
    | some hit =>
        have hh := hit_returns (t := []) h hl
        rw [List.append_nil] at hh
        rw [Option.map_some, hh]
  · rw [Spelling.returns_line hl, recognise_append hr fun h => absurd h hc,
      recognise_append hn fun h => absurd h hc]
    cases h : p.recognise before line with
    | none => rfl
    | some hit => rw [Option.map_some, hit_returns h hl]

theorem head?_returns {c : Char} (hr : c ≠ '\r') (hn : c ≠ '\n') :
    (Spelling.returns.text t).head? = some c ↔ t.head? = some c := by
  cases t with
  | nil => rfl
  | cons d t =>
      by_cases hd : d = '\n'
      · rw [hd, Spelling.returns_cons_newline]
        simp [hr.symm, hn.symm]
      · rw [Spelling.returns_cons hd, List.head?_cons, List.head?_cons]

theorem blockLength_returns (t : Text) : blockLength (Spelling.returns.text t) =
    (Spelling.returns.text (t.take (blockLength t))).length := by
  induction t using blockLength_induction with
  | nil => rfl
  | closed rest => rfl
  | cons c t hopen ih =>
      rw [blockLength_cons hopen, List.take_succ_cons]
      by_cases hc : c = '\n'
      · rw [hc, Spelling.returns_cons_newline, Spelling.returns_cons_newline, blockLength_cons,
          blockLength_cons, ih, List.length_cons, List.length_cons]
        · simp
        · simp
      · rw [Spelling.returns_cons hc, Spelling.returns_cons hc, blockLength_cons, ih,
          List.length_cons]
        rwa [head?_returns (by decide) (by decide)]

theorem length_returns_onLine (t : Text) :
    (Spelling.returns.text (t.take (t.takeWhile onLine).length)).length =
      (t.takeWhile onLine).length := by
  have hline : '\n' ∉ t.takeWhile onLine :=
    not_mem_of_forall (List.all_eq_true.mp List.all_takeWhile) rfl
  rw [← List.prefix_iff_eq_take.mp (List.takeWhile_prefix onLine), Spelling.returns_eq_self hline]

theorem comment?_cons_eq_none {c : Char} (h : c ≠ ';')
    (h' : c = '/' → t.head? ≠ some '/' ∧ t.head? ≠ some '*') : comment? (c :: t) = none := by
  unfold comment?
  split
  · next he => exact absurd (List.cons.inj he).1 h
  · next he =>
      obtain ⟨hc, ht⟩ := List.cons.inj he
      exact absurd (by rw [ht, List.head?_cons]) (h' hc).1
  · next he =>
      obtain ⟨hc, ht⟩ := List.cons.inj he
      exact absurd (by rw [ht, List.head?_cons]) (h' hc).2
  · rfl

theorem hit_opening {opening : Text} (t : Text) (h : '\n' ∉ opening) (n : Nat) :
    Spelling.returns.hit (opening ++ t) ⟨opening.length + n, none⟩ =
      ⟨opening.length + (Spelling.returns.text (t.take n)).length, none⟩ := by
  rw [Spelling.hit, List.take_length_add_append, Spelling.text_append, Spelling.returns_eq_self h,
    List.length_append, Option.map_none]

theorem comment_keeps_returns : Spelling.returns.Keeps source .comment := by
  refine ⟨fun _ _ _ => size_pos (d := '\n') rfl, ?_, within_returns rfl⟩
  intro before t _
  change comment? (Spelling.returns.text t) = (comment? t).map (Spelling.returns.hit t)
  have honLine (cs : Text) : (Spelling.returns.text cs).takeWhile onLine = cs.takeWhile onLine :=
    Spelling.takeWhile_returns rfl rfl
  fun_cases comment? t with
  | case1 cs =>
      have hhit := hit_opening cs (by decide : '\n' ∉ [';']) (cs.takeWhile onLine).length
      rw [length_returns_onLine] at hhit
      rw [Spelling.returns_cons (by decide)]
      simp only [comment?, honLine]
      exact congrArg some hhit.symm
  | case2 cs =>
      have hhit := hit_opening cs (by decide : '\n' ∉ ['/', '/']) (cs.takeWhile onLine).length
      rw [length_returns_onLine] at hhit
      rw [Spelling.returns_cons (by decide), Spelling.returns_cons (by decide)]
      simp only [comment?, honLine]
      exact congrArg some hhit.symm
  | case3 cs =>
      have hhit := hit_opening cs (by decide : '\n' ∉ ['/', '*']) (blockLength cs)
      rw [← blockLength_returns] at hhit
      rw [Spelling.returns_cons (by decide), Spelling.returns_cons (by decide)]
      exact congrArg some hhit.symm
  | case4 t h₁ h₂ h₃ =>
      rw [Option.map_none]
      cases t with
      | nil => rfl
      | cons c t =>
          by_cases hc : c = '\n'
          · rw [hc, Spelling.returns_cons_newline]
            rfl
          · rw [Spelling.returns_cons hc]
            apply comment?_cons_eq_none
            · rintro rfl
              exact h₁ t rfl
            · rintro rfl
              rw [ne_eq, ne_eq, head?_returns (by decide) (by decide),
                head?_returns (by decide) (by decide), List.head?_eq_some_iff,
                List.head?_eq_some_iff]
              constructor
              · rintro ⟨cs, hcs⟩
                exact h₂ cs (by rw [hcs])
              · rintro ⟨cs, hcs⟩
                exact h₃ cs (by rw [hcs])

end Pattern

end PioSyntax

import PioSyntax.Proofs.Rule.Separator
import PioSyntax.Proofs.Text.LastLine

namespace PioSyntax

open Text

namespace Pattern

def IsOpen (text : Text) : Prop := '[' ∈ text.rtakeWhile inBrackets

instance (text : Text) : Decidable (IsOpen text) :=
  inferInstanceAs (Decidable ('[' ∈ text.rtakeWhile inBrackets))

/-- Brackets that are open at the end of `s` are closed in `t`, on the same line. -/
def Reaches (s t : Text) : Prop := IsOpen s ∧ (t.dropWhile inBrackets).head? = some ']'

instance (s t : Text) : Decidable (Reaches s t) := inferInstanceAs (Decidable (_ ∧ _))

/-- What stands after the first opening bracket of a text and before the first closing one, if
that is on its first line. -/
def firstBrackets (text : Text) : Span :=
  ⟨(text.takeWhile (· != '[')).length + 1, (text.takeWhile inBrackets).length⟩

variable {before : Option Char} {s t pre inner rest post text taken : Text} {skip start : Nat}
variable {c : Char} {f : Found} {part : Option Span}

theorem inBrackets_eq_false : inBrackets c = false ↔ c = ']' ∨ c = '\n' ∨ c = '\r' := by
  simp only [inBrackets, onLine, Bool.and_eq_false_iff, bne_eq_false_iff_eq]

theorem firstBrackets_stop_le (text : Text) :
    (firstBrackets text).stop ≤ (text.takeWhile (· != '\n')).length := by
  have hline : text.takeWhile inBrackets =
      (text.takeWhile (· != '\n')).takeWhile inBrackets := by
    rw [List.takeWhile_takeWhile]
    congr 1
    funext c
    by_cases hc : c = '\n'
    · simp [hc, inBrackets, onLine]
    · simp [hc]
  rw [firstBrackets, hline]
  exact (List.takeWhile_prefix _).length_le

theorem not_isOpen_nil : ¬ IsOpen [] := by decide

theorem isOpen_append_cons (hc : inBrackets c = false) : IsOpen (s ++ c :: t) ↔ IsOpen t := by
  rw [IsOpen, rtakeWhile_append_cons hc, IsOpen]

theorem isOpen_append (ht : ∀ c ∈ t, inBrackets c = true) :
    IsOpen (s ++ t) ↔ IsOpen s ∨ '[' ∈ t := by
  rw [IsOpen, rtakeWhile_append ht, List.mem_append, IsOpen]

theorem isOpen_iff : IsOpen text ↔
    ∃ pre inner, text = pre ++ '[' :: inner ∧ ∀ c ∈ inner, inBrackets c = true := by
  constructor
  · intro h
    obtain ⟨pre, inner, hi⟩ := List.append_of_mem h
    refine ⟨text.rdropWhile inBrackets ++ pre, inner, ?_, ?_⟩
    · rw [List.append_assoc, ← hi, List.rdropWhile_append_rtakeWhile]
    · intro c hc
      have hm : c ∈ text.rtakeWhile inBrackets := by
        rw [hi]
        exact List.mem_append_right _ (List.mem_cons_of_mem _ hc)
      exact List.mem_rtakeWhile_imp hm
  · rintro ⟨pre, inner, rfl, hi⟩
    have hopen : ∀ c ∈ '[' :: inner, inBrackets c = true := List.forall_mem_cons.mpr ⟨rfl, hi⟩
    exact (isOpen_append hopen).mpr (.inr List.mem_cons_self)

theorem isOpen_cons : IsOpen (c :: s) ↔
    IsOpen s ∨ c = '[' ∧ ∀ d ∈ s, inBrackets d = true := by
  constructor
  · intro h
    obtain ⟨pre, inner, he, hi⟩ := isOpen_iff.mp h
    cases pre with
    | nil =>
        obtain ⟨rfl, rfl⟩ := List.cons.inj he
        exact .inr ⟨rfl, hi⟩
    | cons d pre => exact .inl (isOpen_iff.mpr ⟨pre, inner, (List.cons.inj he).2, hi⟩)
  · rintro (h | ⟨rfl, hi⟩)
    · obtain ⟨pre, inner, rfl, hi⟩ := isOpen_iff.mp h
      exact isOpen_iff.mpr ⟨c :: pre, inner, rfl, hi⟩
    · exact isOpen_iff.mpr ⟨[], s, rfl, hi⟩

theorem isOpen_append_iff :
    IsOpen (s ++ t) ↔ IsOpen t ∨ IsOpen s ∧ ∀ c ∈ t, inBrackets c = true := by
  induction s with
  | nil => simp [not_isOpen_nil]
  | cons c s ih =>
      rw [List.cons_append, isOpen_cons, isOpen_cons, ih, List.forall_mem_append]
      tauto

theorem isOpen_lastLine : IsOpen (lastLine s) ↔ IsOpen s := by
  obtain ⟨t, hs, ht⟩ := exists_lastLine s
  generalize lastLine s = l at *
  rw [hs]
  rcases ht with rfl | ⟨w, rfl⟩
  · rfl
  · rw [List.append_assoc, List.singleton_append, isOpen_append_cons rfl]

theorem isOpen_congr (h : lastLine s = lastLine t) : IsOpen (s ++ rest) ↔ IsOpen (t ++ rest) := by
  rw [isOpen_append_iff, isOpen_append_iff, ← isOpen_lastLine (s := s), h, isOpen_lastLine]

theorem exists_first_open (h : IsOpen text) :
    ∃ pre inner, text = pre ++ '[' :: inner ∧ (∀ c ∈ inner, inBrackets c = true) ∧
      ¬ IsOpen pre := by
  induction text with
  | nil => cases h
  | cons c text ih =>
      by_cases hall : c = '[' ∧ ∀ d ∈ text, inBrackets d = true
      · exact ⟨[], text, by rw [hall.1]; rfl, hall.2, by decide⟩
      · obtain ⟨pre, inner, rfl, hi, hpre⟩ := ih ((isOpen_cons.mp h).resolve_right hall)
        refine ⟨c :: pre, inner, rfl, hi, fun hopen => hall ?_⟩
        obtain ⟨hc, hp⟩ := (isOpen_cons.mp hopen).resolve_left hpre
        have hrest : ∀ d ∈ '[' :: inner, inBrackets d = true := List.forall_mem_cons.mpr ⟨rfl, hi⟩
        exact ⟨hc, List.forall_mem_append.mpr ⟨hp, hrest⟩⟩

theorem exists_closed (hs : ¬ ∀ c ∈ s, inBrackets c = true)
    (hi : ∀ c ∈ inner, inBrackets c = true) (h : s ++ t = inner ++ ']' :: rest) :
    ∃ u, s = inner ++ ']' :: u := by
  rcases List.append_eq_append_iff.mp h with ⟨u, rfl, -⟩ | ⟨u, rfl, hu⟩
  · exact absurd (fun c hc => hi c (List.mem_append_left _ hc)) hs
  · cases u with
    | nil => exact absurd (by simpa using hi) hs
    | cons c u =>
        obtain rfl := (List.cons.inj hu).1
        exact ⟨u, rfl⟩

/-- Where no bracket is open, the search is between two of its hits. -/
theorem exists_findFrom_arrayIndex (hs : skip ≤ s.length) (h : ¬ IsOpen (s.drop skip)) :
    ∃ found, findFrom .arrayIndex skip before start (s ++ t) =
      found ++ findFrom .arrayIndex 0 (charBefore before s) (start + s.length) t := by
  induction s generalizing skip before start with
  | nil =>
      obtain rfl := Nat.le_zero.mp hs
      exact ⟨[], rfl⟩
  | cons c s ih =>
      have ho : start + (c :: s).length = start + 1 + s.length := by
        rw [List.length_cons]
        omega
      rw [List.cons_append, charBefore_cons, ho]
      cases skip with
      | succ skip => exact ih (Nat.le_of_succ_le_succ hs) h
      | zero =>
          rw [List.drop_zero, isOpen_cons, not_or] at h
          rw [findFrom]
          split
          · next hit hr =>
              -- the bracket that opens here is closed in `s`
              obtain ⟨taken, rest, part, he, rfl, ht⟩ := recognise_iff.mp hr
              cases ht with
              | @arrayIndex _ inner _ hne hi =>
                  simp only [List.cons_append, List.cons.injEq, List.append_assoc] at he
                  obtain ⟨rfl, he⟩ := he
                  have hopen : ¬ ∀ d ∈ s, inBrackets d = true := fun hall => h.2 ⟨rfl, hall⟩
                  obtain ⟨u, rfl⟩ := exists_closed hopen hi he
                  have hskip : (inner ++ [']']).length ≤ (inner ++ ']' :: u).length := by simp
                  have hdrop : (inner ++ ']' :: u).drop (inner ++ [']']).length = u := by simp
                  have hu : ¬ IsOpen ((inner ++ ']' :: u).drop (inner ++ [']']).length) := by
                    rw [hdrop]
                    exact fun hu => h.1 ((isOpen_append_cons rfl).mpr hu)
                  obtain ⟨found, hfound⟩ := ih hskip hu
                  exact ⟨_ :: found, congrArg (_ :: ·) hfound⟩
          · exact ih (Nat.zero_le _) h.1

def bracketed (start : Nat) (inner post : Text) : Found :=
  ⟨start, '[' :: (inner ++ ']' :: post), ⟨inner.length + 2, some ⟨1, inner.length + 1⟩⟩⟩

theorem recognise_bracketed (hne : inner ≠ []) (hi : ∀ c ∈ inner, inBrackets c = true) :
    recognise .arrayIndex before ('[' :: (inner ++ ']' :: post)) =
      some ⟨inner.length + 2, some ⟨1, inner.length + 1⟩⟩ := by
  have h : recognise .arrayIndex before (('[' :: (inner ++ [']'])) ++ post) = _ :=
    recognise_complete (.arrayIndex hne hi)
  simpa using h

theorem bracketed_mem (hne : inner ≠ []) (hi : ∀ c ∈ inner, inBrackets c = true)
    (hp : ¬ IsOpen pre) : bracketed (start + pre.length) inner post ∈
      findFrom .arrayIndex 0 before start (pre ++ '[' :: (inner ++ ']' :: post)) := by
  obtain ⟨found, hfound⟩ := exists_findFrom_arrayIndex (Nat.zero_le pre.length) hp
  rw [hfound, findFrom, recognise_bracketed hne hi]
  exact List.mem_append_right _ List.mem_cons_self

/-- Array indexes are found wherever a bracket that is not in another one is closed on its line. -/
theorem mem_findFrom_arrayIndex : f ∈ findFrom .arrayIndex 0 before start text ↔
    ∃ pre inner post, text = pre ++ '[' :: (inner ++ ']' :: post) ∧ inner ≠ [] ∧
      (∀ c ∈ inner, inBrackets c = true) ∧ ¬ IsOpen pre ∧
      f = bracketed (start + pre.length) inner post := by
  constructor
  · intro h
    obtain ⟨pre, rfl, hstart, -, hr⟩ := mem_findFrom h
    obtain ⟨taken, rest, part, he, hhit, ht⟩ := recognise_iff.mp hr
    cases ht with
    | @arrayIndex _ inner _ hne hi =>
        have hf : f = bracketed (start + pre.length) inner rest := by
          cases f with
          | mk fstart ftext fhit =>
              simp only at hstart he hhit
              simp [bracketed, hstart, he, hhit]
        have htext : f.text = '[' :: (inner ++ ']' :: rest) := by rw [hf, bracketed]
        rw [htext] at h ⊢
        refine ⟨pre, inner, rest, rfl, hne, hi, fun hopen => ?_, hf⟩
        -- the first open bracket would have been taken with all that follows it
        obtain ⟨first, more, rfl, hm, hfirst⟩ := exists_first_open hopen
        have hmore : ∀ c ∈ more ++ '[' :: inner, inBrackets c = true :=
          List.forall_mem_append.mpr ⟨hm, List.forall_mem_cons.mpr ⟨rfl, hi⟩⟩
        have hg : bracketed (start + first.length) (more ++ '[' :: inner) rest ∈
            findFrom .arrayIndex 0 before start
              (first ++ '[' :: more ++ '[' :: (inner ++ ']' :: rest)) := by
          simpa using bracketed_mem (by simp) hmore hfirst
        have hsame := eq_of_mem_findFrom h hg
        simp only [hf, bracketed, List.length_append, List.length_cons, Found.mk.injEq] at hsame
        omega
  · rintro ⟨pre, inner, post, rfl, hne, hi, hp, rfl⟩
    exact bracketed_mem hne hi hp

end Pattern

end PioSyntax

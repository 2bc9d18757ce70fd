import Mathlib.Data.List.Basic
import PioSyntax.Proofs.Pattern.Separator
import PioSyntax.Proofs.Rule.Candidates
import PioSyntax.Proofs.Token.Shift

namespace PioSyntax

open Text

def Found.shift (n : Nat) (f : Found) : Found := { f with start := n + f.start }

def Found.extend (rest : Text) (f : Found) : Found := { f with text := f.text ++ rest }

namespace Pattern

variable {p : Pattern} {before : Option Char} {s t : Text} {skip start n : Nat} {d : Char}

theorem findFrom_shift : findFrom p skip before (n + start) t =
    (findFrom p skip before start t).map (Found.shift n) := by
  induction t generalizing skip before start with
  | nil =>
      unfold findFrom
      split <;> rfl
  | cons c t ih =>
      cases skip with
      | succ skip => rw [findFrom, findFrom, Nat.add_assoc, ih]
      | zero =>
          simp only [findFrom, Nat.add_assoc, ih]
          split <;> rfl

theorem findFrom_after_newline :
    findFrom p 0 (some '\n') start t = findFrom p 0 none start t := by
  cases t <;> simp only [findFrom, recognise_after_newline]

theorem findFrom_nil (hp : p.Separates d) : findFrom p 0 before start [] = [] := by
  simp [findFrom, recognise_nil hp]

theorem isClosed_of_comment?_eq_none (h : comment? s = none) : IsClosed s := by
  rintro body rfl
  cases h

/-- A search sees two texts with a separator between them as it sees them apart, unless a comment is
open there. -/
theorem findFrom_append (hp : p.Separates d) (hs : skip ≤ s.length)
    (hc : p = .comment → ∀ f ∈ findFrom p skip before start s, IsClosed f.text) :
    findFrom p skip before start (s ++ d :: t) =
      (findFrom p skip before start s).map (Found.extend (d :: t)) ++
        findFrom p 0 (some d) (start + s.length + 1) t := by
  induction s generalizing skip before start with
  | nil =>
      obtain rfl := Nat.le_zero.mp hs
      rw [findFrom_nil hp, List.nil_append, findFrom, recognise_separator hp]
      rfl
  | cons c s ih =>
      have ho : start + (c :: s).length + 1 = start + 1 + s.length + 1 := by
        rw [List.length_cons]
        omega
      rw [ho, List.cons_append]
      cases skip with
      | succ skip => exact ih (Nat.le_of_succ_le_succ hs) hc
      | zero =>
          have hopen : p = .comment → IsClosed (c :: s) := by
            rintro rfl
            cases hr : comment? (c :: s) with
            | none => exact isClosed_of_comment?_eq_none hr
            | some hit =>
                apply hc rfl ⟨start, c :: s, hit⟩
                simp [findFrom, recognise, hr]
          have hr : p.recognise before (c :: (s ++ d :: t)) = p.recognise before (c :: s) :=
            recognise_append hp hopen
          simp only [findFrom, hr] at hc ⊢
          split
          · next hit hhit =>
              have hsize := size_le hhit
              rw [List.length_cons] at hsize
              simp only [hhit, List.forall_mem_cons] at hc
              rw [ih (by omega) fun h => (hc h).2]
              rfl
          · next hnone =>
              simp only [hnone] at hc
              exact ih (Nat.zero_le _) hc

theorem mem_findFrom_head {hit : Hit} (h : p.recognise before t = some hit) :
    ⟨start, t, hit⟩ ∈ findFrom p 0 before start t := by
  cases t with
  | nil => simp [findFrom, h]
  | cons c t => simp [findFrom, h]

/-- What is recognised at the start or after a separator is found, for nothing before reaches over
it. -/
theorem mem_findFrom_of_recognise {hit : Hit} (start : Nat) (hp : ∀ d, s.getLast? = some d → p.Separates d)
    (hc : p ≠ .comment) (h : p.recognise (charBefore before s) t = some hit) :
    ⟨start + s.length, t, hit⟩ ∈ findFrom p 0 before start (s ++ t) := by
  rcases List.eq_nil_or_concat' s with rfl | ⟨s, d, rfl⟩
  · exact mem_findFrom_head h
  · have hd : p.Separates d := hp d List.getLast?_concat
    rw [charBefore_append] at h
    rw [List.append_assoc, List.singleton_append, List.length_append,
      findFrom_append hd (Nat.zero_le _) fun hcomment => absurd hcomment hc]
    exact List.mem_append_right _ (mem_findFrom_head h)

end Pattern

namespace Rule

open Pattern

variable {r : Rule} {before : Option Char} {s t : Text} {start n : Nat} {f : Found}

theorem token?_shift : r.token? (f.shift n) = (r.token? f).map (Token.shift n) := by
  ext t
  simp only [token?_eq_some, Option.map_eq_some_iff]
  constructor
  · rintro ⟨part, hg, hne, rfl⟩
    exact ⟨_, ⟨part, hg, hne, rfl⟩, by simp only [Token.shift, Found.shift, Span.shift_shift]⟩
  · rintro ⟨t, ⟨part, hg, hne, rfl⟩, rfl⟩
    exact ⟨part, hg, hne, by simp only [Token.shift, Found.shift, Span.shift_shift]⟩

theorem token?_extend (h : ∀ part, r.groupOf f.hit = some part → part.stop ≤ f.text.length) :
    r.token? (f.extend t) = r.token? f := by
  ext u
  simp only [token?_eq_some, Found.extend]
  constructor
  · rintro ⟨part, hg, hne, rfl⟩
    exact ⟨part, hg, hne, by rw [Span.slice, between_append_left (h part hg), Span.slice]⟩
  · rintro ⟨part, hg, hne, rfl⟩
    exact ⟨part, hg, hne, by rw [Span.slice, Span.slice, between_append_left (h part hg)]⟩

theorem candidates_shift :
    r.candidates ⟨n + start, before, t⟩ =
      (r.candidates ⟨start, before, t⟩).map (Token.shift n) := by
  simp only [candidates, find, findFrom_shift, List.filterMap_map, List.map_filterMap]
  exact List.filterMap_congr fun f _ => token?_shift

theorem candidates_after_newline :
    r.candidates ⟨start, some '\n', t⟩ = r.candidates ⟨start, none, t⟩ := by
  simp only [candidates, find, findFrom_after_newline]

theorem candidates_append {d : Char} (hp : r.pattern.Separates d)
    (hc : r.pattern = .comment → ∀ f ∈ r.pattern.find ⟨start, before, s⟩, IsClosed f.text) :
    r.candidates ⟨start, before, s ++ d :: t⟩ =
      r.candidates ⟨start, before, s⟩ ++ r.candidates ⟨start + s.length + 1, some d, t⟩ := by
  simp only [candidates, find]
  rw [findFrom_append hp (Nat.zero_le _) hc, List.filterMap_append, List.filterMap_map]
  apply congrArg (· ++ _)
  apply List.filterMap_congr
  intro f hf
  obtain ⟨pre, -, -, -, hr⟩ := mem_findFrom hf
  exact token?_extend fun part hg => Nat.le_trans (groupOf_le hr hg) (size_le hr)

theorem not_mem_text {d : Char} {u : Token} {segment : Segment} (hp : r.pattern.Separates d)
    (hc : r.pattern ≠ .comment) (hu : u ∈ r.candidates segment) : d ∉ u.text := by
  obtain ⟨f, hf, hu⟩ := List.mem_filterMap.mp hu
  obtain ⟨part, hg, -, rfl⟩ := token?_eq_some.mp hu
  obtain ⟨pre, -, -, hr⟩ := mem_find hf
  have hle := groupOf_le hr hg
  obtain ⟨taken, rest, marked, he, hhit, ht⟩ := recognise_iff.mp hr
  rw [hhit] at hle
  intro hd
  rw [he, Span.slice, between_append_left hle] at hd
  exact ht.not_mem hp hc (List.mem_of_mem_drop (List.mem_of_mem_take hd))

end Rule

end PioSyntax

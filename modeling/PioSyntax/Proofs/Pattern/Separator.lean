import PioSyntax.Proofs.Pattern.Grammar

namespace PioSyntax.Pattern

open Text

/-- Patterns that take something, and nothing across the character `d`, unless in a block
comment. -/
def Separates (d : Char) : Pattern → Prop
  | comment => onLine d = false
  | directive _ => isWord d = false ∧ isBlank d = false ∧ d ≠ '.'
  | label => isWord d = false ∧ isBlank d = false ∧ d ≠ ':'
  | arrayIndex => inBrackets d = false ∧ d ≠ ']'
  | keyword words => isWord d = false ∧
      ∀ w ∈ findable words, w ≠ [] ∧ w.any (sameLetter · d) = false
  | operator => d ≠ ':' ∧ d ≠ '!' ∧ d ≠ '~'
  | number => isWord d = false

instance (d : Char) (p : Pattern) : Decidable (p.Separates d) :=
  match p with
  | comment => inferInstanceAs (Decidable (onLine d = false))
  | directive _ => inferInstanceAs (Decidable (isWord d = false ∧ isBlank d = false ∧ d ≠ '.'))
  | label => inferInstanceAs (Decidable (isWord d = false ∧ isBlank d = false ∧ d ≠ ':'))
  | arrayIndex => inferInstanceAs (Decidable (inBrackets d = false ∧ d ≠ ']'))
  | keyword words => inferInstanceAs (Decidable (isWord d = false ∧
      ∀ w ∈ findable words, w ≠ [] ∧ w.any (sameLetter · d) = false))
  | operator => inferInstanceAs (Decidable (d ≠ ':' ∧ d ≠ '!' ∧ d ≠ '~'))
  | number => inferInstanceAs (Decidable (isWord d = false))

def IsClosed (text : Text) : Prop := ∀ body, text = '/' :: '*' :: body → ['*', '/'] <:+: body

variable {p : Pattern} {before : Option Char} {s t taken rest word : Text}
variable {part : Option Span} {c d : Char}

theorem exists_sameLetter (h : sameLetters s t = true) (hd : d ∈ t) :
    ∃ c ∈ s, sameLetter c d = true := by
  induction s generalizing t with
  | nil => cases t <;> simp_all [sameLetters]
  | cons a s ih =>
      cases t with
      | nil => cases hd
      | cons b t =>
          simp only [sameLetters, Bool.and_eq_true] at h
          rcases List.mem_cons.mp hd with rfl | hd
          · exact ⟨a, by simp, h.1⟩
          · obtain ⟨c, hc, hs⟩ := ih h.2 hd
            exact ⟨c, List.mem_cons_of_mem a hc, hs⟩

theorem not_mem_of_sameLetters (hw : word.any (sameLetter · d) = false)
    (h : sameLetters word taken = true) : d ∉ taken := by
  intro hm
  obtain ⟨c, hc, hs⟩ := exists_sameLetter h hm
  exact List.any_eq_false.mp hw c hc hs

theorem Takes.ne_nil (h : Takes p before taken rest part) (hp : p.Separates d) : taken ≠ [] := by
  cases h with
  | lineComment ho => rcases ho with rfl | rfl <;> simp
  | blockComment | openComment | directive | label | publicLabel | arrayIndex => simp
  | keyword hb hd hw hs =>
      have hword := (hp.2 _ hw).1
      rintro rfl
      exact hword (List.length_eq_zero_iff.mp (length_of_sameLetters hs))
  | operator hs => rcases hs with rfl | rfl | rfl <;> simp
  | number hb hw hr hn =>
      rintro rfl
      exact absurd hn (by decide)

theorem Takes.not_mem (h : Takes p before taken rest part) (hp : p.Separates d)
    (hc : p ≠ .comment) : d ∉ taken := by
  cases h with
  | lineComment | blockComment | openComment => exact absurd rfl hc
  | directive hl hi hw =>
      simp [not_mem_of_forall hi hp.2.1, not_mem_of_forall hw hp.1, hp.2.2]
  | label hl hi hn =>
      simp [not_mem_of_forall hi hp.2.1, not_mem_of_forall hn.isWord hp.1, hp.2.2]
  | publicLabel hl hi hg hne hn =>
      have hpublic : ∀ c ∈ "public".toList, isWord c = true := List.all_eq_true.mp rfl
      have hd := not_mem_of_forall hpublic hp.1
      simp only [List.mem_append, List.mem_singleton, not_or]
      exact ⟨not_mem_of_forall hi hp.2.1, hd, not_mem_of_forall hg hp.2.1,
        not_mem_of_forall hn.isWord hp.1, hp.2.2⟩
  | arrayIndex hne hi =>
      have hd : d ≠ '[' := by
        rintro rfl
        exact absurd hp.1 (by decide)
      simp [not_mem_of_forall hi hp.1, hd, hp.2]
  | keyword hb hd hw hs => exact not_mem_of_sameLetters (hp.2 _ hw).2 hs
  | operator hs =>
      obtain ⟨h₁, h₂, h₃⟩ := hp
      rcases hs with rfl | rfl | rfl <;> simp [h₁, h₂, h₃]
  | number hb hw => exact not_mem_of_forall hw hp

theorem exists_rest (hs : c ∉ taken) (h : s ++ c :: t = taken ++ rest) :
    ∃ u, s = taken ++ u ∧ rest = u ++ c :: t := by
  rcases List.append_eq_append_iff.mp h with ⟨u, ht, hr⟩ | h
  · cases u with
    | nil => exact ⟨[], by simp [ht], hr.symm⟩
    | cons d u =>
        obtain rfl := (List.cons.inj hr).1
        exact absurd (ht ▸ List.mem_append_right s List.mem_cons_self) hs
  · exact h

theorem standsAt_append (hd : isWord d = false) (hw : word.any (sameLetter · d) = false) :
    standsAt (s ++ d :: t) word = true ↔ standsAt s word = true := by
  rw [standsAt_iff, standsAt_iff]
  constructor
  · rintro ⟨taken, rest, he, hs, hr⟩
    obtain ⟨u, rfl, rfl⟩ := exists_rest (not_mem_of_sameLetters hw hs) he
    exact ⟨taken, u, rfl, hs, (stops_append_cons hd).mp hr⟩
  · rintro ⟨taken, rest, rfl, hs, hr⟩
    exact ⟨taken, rest ++ d :: t, by simp, hs, (stops_append_cons hd).mpr hr⟩

/-- Whether the text ends or a separator follows makes no difference. -/
theorem takes_append (hp : p.Separates d) (hc : p ≠ .comment) :
    Takes p before taken (rest ++ d :: t) part ↔ Takes p before taken rest part := by
  have hcolon {s : Text} (hd : d ≠ ':') :
      Stops (· == ':') (s ++ d :: t) ↔ Stops (· == ':') s := stops_append_cons (by simpa using hd)
  constructor
  · intro h
    generalize hr : rest ++ d :: t = more at h
    cases h with
    | lineComment | blockComment | openComment => exact absurd rfl hc
    | directive hl hi hw hs hn =>
        exact .directive hl hi hw ((stops_append_cons hp.1).mp (hr ▸ hs)) hn
    | label hl hi hn hs => exact .label hl hi hn ((hcolon hp.2.2).mp (hr ▸ hs))
    | publicLabel hl hi hg hne hn hs =>
        exact .publicLabel hl hi hg hne hn ((hcolon hp.2.2).mp (hr ▸ hs))
    | arrayIndex hne hi => exact .arrayIndex hne hi
    | keyword hb hd hw hs hstop hmax =>
        subst hr
        apply Takes.keyword hb hd hw hs ((stops_append_cons hp.1).mp hstop)
        intro v hv hstands
        apply hmax v hv
        rwa [← List.append_assoc, standsAt_append hp.1 (hp.2 v hv).2]
    | operator hs => exact .operator hs
    | number hb hw hs hn => exact .number hb hw ((stops_append_cons hp).mp (hr ▸ hs)) hn
  · intro h
    cases h with
    | lineComment | blockComment | openComment => exact absurd rfl hc
    | directive hl hi hw hs hn => exact .directive hl hi hw ((stops_append_cons hp.1).mpr hs) hn
    | label hl hi hn hs => exact .label hl hi hn ((hcolon hp.2.2).mpr hs)
    | publicLabel hl hi hg hne hn hs =>
        exact .publicLabel hl hi hg hne hn ((hcolon hp.2.2).mpr hs)
    | arrayIndex hne hi => exact .arrayIndex hne hi
    | keyword hb hd hw hs hstop hmax =>
        apply Takes.keyword hb hd hw hs ((stops_append_cons hp.1).mpr hstop)
        intro v hv hstands
        apply hmax v hv
        rwa [← List.append_assoc, standsAt_append hp.1 (hp.2 v hv).2] at hstands
    | operator hs => exact .operator hs
    | number hb hw hs hn => exact .number hb hw ((stops_append_cons hp).mpr hs) hn

theorem blockLength_append (h : ['*', '/'] <:+: s) : blockLength (s ++ t) = blockLength s := by
  rcases exists_block s with ⟨body, rest, rfl, hb⟩ | hn
  · rw [List.append_assoc, List.cons_append, List.cons_append, blockLength_closed hb,
      blockLength_closed hb]
  · exact absurd h hn

theorem comment?_append (hd : onLine d = false) (hc : IsClosed s) :
    comment? (s ++ d :: t) = comment? s := by
  have hline {cs : Text} : (cs ++ d :: t).takeWhile onLine = cs.takeWhile onLine :=
    takeWhile_append_cons hd
  have hslash : d ≠ '/' := by
    rintro rfl
    exact absurd hd (by decide)
  have hstar : d ≠ '*' := by
    rintro rfl
    exact absurd hd (by decide)
  have hsemicolon : d ≠ ';' := by
    rintro rfl
    exact absurd hd (by decide)
  fun_cases comment? s with
  | case1 cs => simp only [comment?, List.cons_append, hline]
  | case2 cs => simp only [comment?, List.cons_append, hline]
  | case3 cs => simp only [comment?, List.cons_append, blockLength_append (hc cs rfl)]
  | case4 s h₁ h₂ h₃ =>
      rcases s with _ | ⟨c, _ | ⟨e, s⟩⟩
      · simp [comment?, hslash, hsemicolon]
      · have hc : c ≠ ';' := fun h => h₁ [] (by rw [h])
        simp [comment?, hc, hslash, hstar]
      · simp_all [comment?]

/-- A pattern sees nothing of what follows a separator after a text. -/
theorem recognise_append (hp : p.Separates d) (hc : p = .comment → IsClosed s) :
    p.recognise before (s ++ d :: t) = p.recognise before s := by
  by_cases hcomment : p = .comment
  · subst hcomment
    exact comment?_append hp (hc rfl)
  · ext hit
    rw [recognise_iff, recognise_iff]
    constructor
    · rintro ⟨taken, rest, part, he, hhit, h⟩
      obtain ⟨u, rfl, rfl⟩ := exists_rest (h.not_mem hp hcomment) he
      exact ⟨taken, u, part, rfl, hhit, (takes_append hp hcomment).mp h⟩
    · rintro ⟨taken, rest, part, rfl, hhit, h⟩
      exact ⟨taken, rest ++ d :: t, part, by simp, hhit, (takes_append hp hcomment).mpr h⟩

theorem recognise_nil (hp : p.Separates d) : p.recognise before [] = none := by
  apply Option.eq_none_iff_forall_ne_some.mpr
  intro hit h
  obtain ⟨taken, rest, part, he, -, ht⟩ := recognise_iff.mp h
  exact ht.ne_nil hp (List.append_eq_nil_iff.mp he.symm).1

theorem recognise_separator (hp : p.Separates d) : p.recognise before (d :: t) = none := by
  have h : p.recognise before ([] ++ d :: t) = p.recognise before [] :=
    recognise_append hp fun _ _ he => nomatch he
  rwa [recognise_nil hp] at h

theorem recognise_after_newline : p.recognise (some '\n') s = p.recognise none s := by
  cases p <;> rfl

end PioSyntax.Pattern

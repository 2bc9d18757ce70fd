import PioSyntax.Pattern
import PioSyntax.Proofs.Text.Runs

namespace PioSyntax.Pattern

open Text

def IsName (name : Text) : Prop :=
  ∃ c cs, name = c :: cs ∧ isNameStart c = true ∧ ∀ d ∈ cs, isWord d = true

/-- Where a pattern takes the characters `taken`, between the character `before` and the text
`rest`, and marks the span `part` of them. -/
inductive Takes : Pattern → (before : Option Char) → (taken rest : Text) → (part : Option Span) →
    Prop
  | lineComment {before : Option Char} {opening body rest : Text}
      (ho : opening = [';'] ∨ opening = ['/', '/']) (hb : ∀ c ∈ body, onLine c = true)
      (hr : Stops onLine rest) : Takes .comment before (opening ++ body) rest none
  | blockComment {before : Option Char} {body rest : Text}
      (hb : ¬ ['*', '/'] <:+: body ++ ['*']) :
      Takes .comment before ('/' :: '*' :: (body ++ ['*', '/'])) rest none
  | openComment {before : Option Char} {body : Text} (hb : ¬ ['*', '/'] <:+: body) :
      Takes .comment before ('/' :: '*' :: body) [] none
  | directive {names : List Text} {before : Option Char} {indent name rest : Text}
      (hl : startsLine before = true) (hi : IsBlanks indent) (hw : ∀ c ∈ name, isWord c = true)
      (hr : Stops isWord rest) (hn : ∃ n ∈ names, sameLetters name n = true) :
      Takes (.directive names) before (indent ++ '.' :: name) rest
        (some ⟨indent.length, indent.length + 1 + name.length⟩)
  | label {before : Option Char} {indent name rest : Text} (hl : startsLine before = true)
      (hi : IsBlanks indent) (hn : IsName name) (hr : Stops (· == ':') rest) :
      Takes .label before (indent ++ (name ++ [':'])) rest
        (some ⟨indent.length, indent.length + name.length⟩)
  | publicLabel {before : Option Char} {indent gap name rest : Text}
      (hl : startsLine before = true) (hi : IsBlanks indent) (hg : IsBlanks gap) (hne : gap ≠ [])
      (hn : IsName name) (hr : Stops (· == ':') rest) :
      Takes .label before (indent ++ ("public".toList ++ (gap ++ (name ++ [':'])))) rest
        (some ⟨indent.length + (6 + gap.length), indent.length + (6 + gap.length) + name.length⟩)
  | arrayIndex {before : Option Char} {inner rest : Text} (hne : inner ≠ [])
      (hi : ∀ c ∈ inner, inBrackets c = true) :
      Takes .arrayIndex before ('[' :: (inner ++ [']'])) rest (some ⟨1, inner.length + 1⟩)
  | keyword {words : List Text} {before : Option Char} {word taken rest : Text}
      (hb : startsWord before = true) (hd : before ≠ some '.') (hw : word ∈ findable words)
      (hs : sameLetters word taken = true) (hr : Stops isWord rest)
      (hmax : ∀ v ∈ findable words, standsAt (taken ++ rest) v = true → v.length ≤ word.length) :
      Takes (.keyword words) before taken rest none
  | operator {before : Option Char} {sign rest : Text}
      (hs : sign = [':', ':'] ∨ sign = ['!'] ∨ sign = ['~']) : Takes .operator before sign rest none
  | number {before : Option Char} {word rest : Text} (hb : startsWord before = true)
      (hw : ∀ c ∈ word, isWord c = true) (hr : Stops isWord rest) (hn : isNumber word = true) :
      Takes .number before word rest none

variable {before : Option Char} {text s t body name taken rest word : Text} {hit : Hit}
variable {words names : List Text} {p : Pattern} {part : Option Span}

theorem endsWord_iff : endsWord text = true ↔ Stops isWord text := by
  simp [endsWord, Stops]

theorem blockLength_open (h : ¬ ['*', '/'] <:+: body) : blockLength body = body.length := by
  induction body with
  | nil => rfl
  | cons c body ih =>
      rw [List.infix_cons_iff, not_or] at h
      rw [blockLength, ih h.2, List.length_cons]
      rintro rest rfl rfl
      exact h.1 (by simp)

theorem blockLength_closed (h : ¬ ['*', '/'] <:+: body ++ ['*']) :
    blockLength (body ++ '*' :: '/' :: rest) = body.length + 2 := by
  induction body with
  | nil => rfl
  | cons c body ih =>
      rw [List.cons_append, List.infix_cons_iff, not_or] at h
      rw [List.cons_append, blockLength, ih h.2, List.length_cons]
      rintro tail rfl he
      apply h.1
      cases body with
      | nil => simp at he
      | cons d body =>
          obtain rfl := (List.cons.inj he).1
          simp

/-- A text is closed at the first place where it can be, or nowhere. -/
theorem exists_block (text : Text) :
    (∃ body rest, text = body ++ '*' :: '/' :: rest ∧ ¬ ['*', '/'] <:+: body ++ ['*']) ∨
      ¬ ['*', '/'] <:+: text := by
  induction text with
  | nil => exact .inr (by simp)
  | cons c text ih =>
      by_cases hp : ['*', '/'] <+: c :: text
      · obtain ⟨rest, hrest⟩ := hp
        refine .inl ⟨[], rest, by simpa using hrest.symm, ?_⟩
        intro hi
        simpa using hi.length_le
      · rcases ih with ⟨body, rest, rfl, hb⟩ | hn
        · refine .inl ⟨c :: body, rest, rfl, ?_⟩
          rw [List.cons_append, List.infix_cons_iff, not_or]
          refine ⟨fun hq => hp ?_, hb⟩
          have : c :: (body ++ ['*']) <+: c :: (body ++ '*' :: '/' :: rest) :=
            ⟨'/' :: rest, by simp⟩
          exact hq.trans this
        · exact .inr (by rw [List.infix_cons_iff, not_or]; exact ⟨hp, hn⟩)

theorem comment?_sound (h : comment? text = some hit) :
    ∃ taken rest part, text = taken ++ rest ∧ hit = ⟨taken.length, part⟩ ∧
      Takes .comment before taken rest part := by
  unfold comment? at h
  split at h
  · next cs =>
      obtain ⟨body, rest, rfl, hb, hr⟩ := exists_run onLine cs
      rw [takeWhile_run hb hr] at h
      cases h
      refine ⟨[';'] ++ body, rest, none, rfl, ?_, .lineComment (.inl rfl) hb hr⟩
      rw [List.length_append]; rfl
  · next cs =>
      obtain ⟨body, rest, rfl, hb, hr⟩ := exists_run onLine cs
      rw [takeWhile_run hb hr] at h
      cases h
      refine ⟨['/', '/'] ++ body, rest, none, rfl, ?_, .lineComment (.inr rfl) hb hr⟩
      rw [List.length_append]; rfl
  · next cs =>
      cases h
      rcases exists_block cs with ⟨body, rest, rfl, hb⟩ | hb
      · refine ⟨_, rest, none, by simp, ?_, .blockComment hb⟩
        simp only [blockLength_closed hb, List.length_cons, List.length_append, List.length_nil,
          Hit.mk.injEq, and_true]
        omega
      · refine ⟨_, [], none, by simp, ?_, .openComment hb⟩
        simp only [blockLength_open hb, List.length_cons, Hit.mk.injEq, and_true]
        omega
  · cases h

theorem comment?_complete (h : Takes .comment before taken rest part) :
    comment? (taken ++ rest) = some ⟨taken.length, part⟩ := by
  cases h with
  | @lineComment _ opening body _ ho hb hr =>
      rcases ho with rfl | rfl <;>
        simp only [comment?, List.cons_append, List.nil_append, takeWhile_run hb hr,
          List.length_cons, Option.some.injEq, Hit.mk.injEq, and_true] <;> omega
  | @blockComment _ body _ hb =>
      simp only [comment?, List.cons_append, List.append_assoc, List.nil_append,
        blockLength_closed hb, List.length_cons, List.length_append, List.length_nil,
        Option.some.injEq, Hit.mk.injEq, and_true]
      omega
  | @openComment _ body hb =>
      simp only [comment?, List.append_nil, blockLength_open hb, List.length_cons,
        Option.some.injEq, Hit.mk.injEq, and_true]
      omega

theorem any_sameLetters_iff : names.any (sameLetters name) = true ↔
    ∃ n ∈ names, sameLetters name n = true := by simp

theorem directive?_sound (h : directive? names before text = some hit) :
    ∃ taken rest part, text = taken ++ rest ∧ hit = ⟨taken.length, part⟩ ∧
      Takes (.directive names) before taken rest part := by
  unfold directive? at h
  split at h
  case isFalse => cases h
  case isTrue hl =>
    obtain ⟨indent, tail, rfl, hi, ht⟩ := exists_run isBlank text
    simp only [blanks_run hi ht, List.drop_left] at h
    split at h
    case h_2 => cases h
    case h_1 tail =>
      obtain ⟨name, rest, rfl, hw, hr⟩ := exists_run isWord tail
      simp only [takeWhile_run hw hr] at h
      split at h
      case isFalse => cases h
      case isTrue hn =>
        cases h
        refine ⟨indent ++ '.' :: name, rest, _, by simp, ?_,
          .directive hl hi hw hr (any_sameLetters_iff.mp hn)⟩
        simp only [List.length_append, List.length_cons, Hit.mk.injEq, and_true]
        omega

theorem directive?_complete (h : Takes (.directive names) before taken rest part) :
    directive? names before (taken ++ rest) = some ⟨taken.length, part⟩ := by
  cases h with
  | @directive _ _ indent name _ hl hi hw hr hn =>
      simp only [directive?, hl, ↓reduceIte, List.append_assoc, List.cons_append]
      rw [blanks_run hi (stops_cons.mpr (by decide)), List.drop_left]
      simp only [takeWhile_run hw hr, any_sameLetters_iff.mpr hn, ↓reduceIte,
        List.length_append, List.length_cons, Option.some.injEq, Hit.mk.injEq, and_true]
      omega

theorem IsName.length_pos (h : IsName name) : 0 < name.length := by
  obtain ⟨c, cs, rfl, -, -⟩ := h
  exact Nat.succ_pos _

theorem IsName.stops_blank (h : IsName name) : Stops isBlank (name ++ rest) := by
  obtain ⟨c, cs, rfl, hc, -⟩ := h
  exact stops_cons.mpr (isBlank_of_isNameStart hc)

theorem IsName.isWord (h : IsName name) : ∀ c ∈ name, isWord c = true := by
  obtain ⟨c, cs, rfl, hc, hcs⟩ := h
  exact List.forall_mem_cons.mpr ⟨isWord_of_isNameStart hc, hcs⟩

theorem labelLength?_iff {n : Nat} : labelLength? text = some n ↔
    ∃ name rest, text = name ++ ':' :: rest ∧ IsName name ∧ Stops (· == ':') rest ∧
      n = name.length := by
  constructor
  · intro h
    cases text with
    | nil => cases h
    | cons c text =>
        simp only [labelLength?] at h
        split at h
        case isFalse => cases h
        case isTrue hc =>
          obtain ⟨cs, tail, rfl, hcs, ht⟩ := exists_run Text.isWord text
          rw [takeWhile_run hcs ht, List.drop_left] at h
          split at h
          · cases h
          · next rest hne =>
              cases h
              refine ⟨c :: cs, rest, rfl, ⟨c, cs, rfl, hc, hcs⟩, ?_, rfl⟩
              cases rest with
              | nil => exact stops_nil
              | cons d rest => exact stops_cons.mpr (by simpa using fun hd => hne rest (by rw [hd]))
          · cases h
  · rintro ⟨name, rest, rfl, ⟨c, cs, rfl, hc, hcs⟩, hr, rfl⟩
    have hcolon : Stops Text.isWord (':' :: rest) := stops_cons.mpr (by decide)
    simp only [List.cons_append, labelLength?, hc, ↓reduceIte, takeWhile_run hcs hcolon,
      List.drop_left]
    cases rest with
    | nil => rfl
    | cons d rest =>
        have hd : d ≠ ':' := by simpa using hr
        split
        · next he => exact absurd (List.cons.inj (List.cons.inj he).2).1 hd
        · rfl
        · next h => exact absurd rfl (h _)

theorem after?_iff {start : Text} : after? start text = some rest ↔ text = start ++ rest := by
  induction start generalizing text with
  | nil => simp [after?]
  | cons a start ih =>
      cases text with
      | nil => simp [after?]
      | cons b text =>
          simp only [after?]
          split
          · next h => simp [ih, h]
          · next h => simpa using fun hb => absurd hb.symm h

theorem publicLength?_iff {n : Nat} : publicLength? text = some n ↔
    ∃ gap rest, text = "public".toList ++ (gap ++ rest) ∧ IsBlanks gap ∧ gap ≠ [] ∧
      Stops isBlank rest ∧ n = 6 + gap.length := by
  constructor
  · intro h
    obtain ⟨tail, ha, h⟩ := Option.bind_eq_some_iff.mp h
    obtain ⟨gap, rest, rfl, hg, hr⟩ := exists_run isBlank tail
    rw [blanks_run hg hr] at h
    split at h
    · cases h
    · next hne =>
        exact ⟨gap, rest, after?_iff.mp ha, hg, fun he => hne (by rw [he]; rfl), hr,
          (Option.some.inj h).symm⟩
  · rintro ⟨gap, rest, rfl, hg, hne, hr, rfl⟩
    have hl : gap.length ≠ 0 := by simpa using hne
    have ha : after? "public".toList ("public".toList ++ (gap ++ rest)) = some (gap ++ rest) :=
      after?_iff.mpr rfl
    simp only [publicLength?, ha, Option.bind_some, blanks_run hg hr, if_neg hl]

/-- A name directly before a colon is not the word `public` of a published label. -/
theorem publicLength?_of_name (h : IsName name) : publicLength? (name ++ ':' :: rest) = none := by
  apply Option.eq_none_iff_forall_ne_some.mpr
  intro n hn
  obtain ⟨gap, tail, he, hg, hne, -, -⟩ := publicLength?_iff.mp hn
  obtain ⟨b, gap, rfl⟩ := List.exists_cons_of_ne_nil hne
  have hb : isBlank b = true := hg b (by simp)
  have hpublic : ∀ c ∈ "public".toList, Text.isWord c = true := List.all_eq_true.mp rfl
  have hw := congrArg (List.takeWhile Text.isWord) he
  rw [List.cons_append, takeWhile_run h.isWord (stops_cons.mpr (by decide)),
    takeWhile_run hpublic (stops_cons.mpr (isWord_of_isBlank hb))] at hw
  rw [hw, List.cons_append] at he
  have hc := (List.cons.inj (List.append_cancel_left he)).1
  rw [← hc] at hb
  exact absurd hb (by decide)

theorem drop_public (gap rest : Text) :
    ("public".toList ++ (gap ++ rest)).drop (6 + gap.length) = rest := by
  rw [← List.append_assoc, List.drop_left' (by rw [List.length_append]; rfl)]

theorem label?_sound (h : label? before text = some hit) :
    ∃ taken rest part, text = taken ++ rest ∧ hit = ⟨taken.length, part⟩ ∧
      Takes .label before taken rest part := by
  unfold label? at h
  split at h
  case isFalse => cases h
  case isTrue hl =>
    obtain ⟨indent, tail, rfl, hi, ht⟩ := exists_run isBlank text
    simp only [blanks_run hi ht, List.drop_left] at h
    obtain ⟨⟨start, size⟩, hf, rfl⟩ := Option.map_eq_some_iff.mp h
    rcases Option.or_eq_some_iff.mp hf with hf | ⟨-, hf⟩
    · obtain ⟨n, hp, hf⟩ := Option.bind_eq_some_iff.mp hf
      obtain ⟨gap, tail, rfl, hg, hne, -, rfl⟩ := publicLength?_iff.mp hp
      rw [drop_public] at hf
      obtain ⟨size, hn, he⟩ := Option.map_eq_some_iff.mp hf
      cases he
      obtain ⟨name, rest, rfl, hname, hr, rfl⟩ := labelLength?_iff.mp hn
      refine ⟨_, rest, _, by simp, ?_, .publicLabel hl hi hg hne hname hr⟩
      have hp : "public".toList.length = 6 := rfl
      simp only [List.length_append, List.length_cons, List.length_nil, hp, Hit.mk.injEq, and_true]
      omega
    · obtain ⟨size, hn, he⟩ := Option.map_eq_some_iff.mp hf
      cases he
      obtain ⟨name, rest, rfl, hname, hr, rfl⟩ := labelLength?_iff.mp hn
      refine ⟨_, rest, _, by simp, ?_, .label hl hi hname hr⟩
      simp only [List.length_append, List.length_cons, List.length_nil, Hit.mk.injEq, and_true]
      omega

theorem label?_complete (h : Takes .label before taken rest part) :
    label? before (taken ++ rest) = some ⟨taken.length, part⟩ := by
  cases h with
  | @label _ indent name _ hl hi hn hr =>
      have hlen : labelLength? (name ++ ':' :: rest) = some name.length :=
        labelLength?_iff.mpr ⟨name, rest, rfl, hn, hr, rfl⟩
      simp only [label?, hl, ↓reduceIte, List.append_assoc, List.cons_append, List.nil_append]
      rw [blanks_run hi hn.stops_blank, List.drop_left, publicLength?_of_name hn, hlen]
      simp only [Option.bind_none, Option.map_some, Option.none_or, List.length_append,
        List.length_cons, List.length_nil, Option.some.injEq, Hit.mk.injEq, and_true]
      omega
  | @publicLabel _ indent gap name _ hl hi hg hne hn hr =>
      have hpub : publicLength? ("public".toList ++ (gap ++ (name ++ ':' :: rest))) =
          some (6 + gap.length) :=
        publicLength?_iff.mpr ⟨gap, _, rfl, hg, hne, hn.stops_blank, rfl⟩
      have hlen : labelLength? (name ++ ':' :: rest) = some name.length :=
        labelLength?_iff.mpr ⟨name, rest, rfl, hn, hr, rfl⟩
      have hstop : Stops isBlank ("public".toList ++ (gap ++ (name ++ ':' :: rest))) := rfl
      have hp : "public".toList.length = 6 := rfl
      simp only [label?, hl, ↓reduceIte, List.append_assoc, List.cons_append, List.nil_append]
      rw [blanks_run hi hstop, List.drop_left, hpub]
      simp only [Option.bind_some, drop_public, hlen, Option.map_some, Option.some_or,
        List.length_append, List.length_cons, List.length_nil, hp, Option.some.injEq,
        Hit.mk.injEq, and_true]
      omega

theorem arrayIndex?_sound (h : arrayIndex? text = some hit) :
    ∃ taken rest part, text = taken ++ rest ∧ hit = ⟨taken.length, part⟩ ∧
      Takes .arrayIndex before taken rest part := by
  unfold arrayIndex? at h
  split at h
  case h_2 => cases h
  case h_1 tail =>
    obtain ⟨inner, tail, rfl, hi, ht⟩ := exists_run inBrackets tail
    simp only [takeWhile_run hi ht, List.drop_left] at h
    split at h
    case isFalse => cases h
    case isTrue hc =>
      cases h
      simp only [ne_eq, Bool.and_eq_true, decide_eq_true_eq, beq_iff_eq] at hc
      obtain ⟨rest, rfl⟩ := List.head?_eq_some_iff.mp hc.2
      have hne : inner ≠ [] := fun he => hc.1 (by rw [he]; rfl)
      exact ⟨_, rest, _, by simp, by simp, .arrayIndex hne hi⟩

theorem arrayIndex?_complete (h : Takes .arrayIndex before taken rest part) :
    arrayIndex? (taken ++ rest) = some ⟨taken.length, part⟩ := by
  cases h with
  | @arrayIndex _ inner _ hne hi =>
      have hstop : Stops inBrackets (']' :: rest) := rfl
      simp [arrayIndex?, takeWhile_run hi hstop, hne]

theorem length_of_sameLetters (h : sameLetters s t = true) : s.length = t.length := by
  induction s generalizing t with
  | nil => cases t <;> simp_all [sameLetters]
  | cons a s ih =>
      cases t with
      | nil => cases h
      | cons b t =>
          simp only [sameLetters, Bool.and_eq_true] at h
          rw [List.length_cons, List.length_cons, ih h.2]

theorem startsWithWord_iff : startsWithWord word text = true ↔
    ∃ taken rest, text = taken ++ rest ∧ sameLetters word taken = true := by
  induction word generalizing text with
  | nil => exact ⟨fun _ => ⟨[], text, rfl, rfl⟩, fun _ => rfl⟩
  | cons a word ih =>
      constructor
      · intro h
        cases text with
        | nil => cases h
        | cons b text =>
            simp only [startsWithWord, Bool.and_eq_true] at h
            obtain ⟨taken, rest, rfl, hs⟩ := ih.mp h.2
            exact ⟨b :: taken, rest, rfl, by simp [sameLetters, h.1, hs]⟩
      · rintro ⟨taken, rest, rfl, hs⟩
        cases taken with
        | nil => cases hs
        | cons b taken =>
            simp only [sameLetters, Bool.and_eq_true] at hs
            simpa [startsWithWord, hs.1] using ih.mpr ⟨taken, rest, rfl, hs.2⟩

theorem standsAt_iff : standsAt text word = true ↔
    ∃ taken rest, text = taken ++ rest ∧ sameLetters word taken = true ∧ Stops isWord rest := by
  rw [standsAt, Bool.and_eq_true, startsWithWord_iff, endsWord_iff]
  constructor
  · rintro ⟨⟨taken, rest, rfl, hs⟩, hr⟩
    rw [length_of_sameLetters hs, List.drop_left] at hr
    exact ⟨taken, rest, rfl, hs, hr⟩
  · rintro ⟨taken, rest, rfl, hs, hr⟩
    refine ⟨⟨taken, rest, rfl, hs⟩, ?_⟩
    rwa [length_of_sameLetters hs, List.drop_left]

theorem mem_lengths {n : Nat} : n ∈ ((findable words).filter (standsAt text)).map List.length ↔
    ∃ word ∈ findable words, standsAt text word = true ∧ word.length = n := by
  simp [and_assoc]

theorem keyword?_sound (h : keyword? words before text = some hit) :
    ∃ taken rest part, text = taken ++ rest ∧ hit = ⟨taken.length, part⟩ ∧
      Takes (.keyword words) before taken rest part := by
  unfold keyword? at h
  split at h
  case isFalse => cases h
  case isTrue hb =>
    obtain ⟨n, hmax, rfl⟩ := Option.map_eq_some_iff.mp h
    obtain ⟨hmem, hmax⟩ := List.max?_eq_some_iff.mp hmax
    obtain ⟨word, hw, hs, rfl⟩ := mem_lengths.mp hmem
    obtain ⟨taken, rest, rfl, hs, hr⟩ := standsAt_iff.mp hs
    simp only [Bool.and_eq_true, bne_iff_ne, ne_eq] at hb
    refine ⟨taken, rest, none, rfl, by rw [length_of_sameLetters hs], ?_⟩
    exact .keyword hb.1 hb.2 hw hs hr fun v hv hstands =>
      hmax _ (mem_lengths.mpr ⟨v, hv, hstands, rfl⟩)

theorem keyword?_complete (h : Takes (.keyword words) before taken rest part) :
    keyword? words before (taken ++ rest) = some ⟨taken.length, part⟩ := by
  cases h with
  | @keyword _ _ word _ _ hb hd hw hs hr hmax =>
      have hc : (startsWord before && before != some '.') = true := by simp [hb, hd]
      have hm : (((findable words).filter (standsAt (taken ++ rest))).map List.length).max? =
          some word.length := by
        refine List.max?_eq_some_iff.mpr ⟨?_, fun n hn => ?_⟩
        · exact mem_lengths.mpr ⟨word, hw, standsAt_iff.mpr ⟨taken, rest, rfl, hs, hr⟩, rfl⟩
        · obtain ⟨v, hv, hstands, rfl⟩ := mem_lengths.mp hn
          exact hmax v hv hstands
      rw [keyword?, if_pos hc, hm, Option.map_some, length_of_sameLetters hs]

theorem operator?_sound (h : operator? text = some hit) :
    ∃ taken rest part, text = taken ++ rest ∧ hit = ⟨taken.length, part⟩ ∧
      Takes .operator before taken rest part := by
  unfold operator? at h
  split at h
  · next rest =>
      cases h
      exact ⟨[':', ':'], rest, none, rfl, rfl, .operator (.inl rfl)⟩
  · next rest =>
      cases h
      exact ⟨['!'], rest, none, rfl, rfl, .operator (.inr (.inl rfl))⟩
  · next rest =>
      cases h
      exact ⟨['~'], rest, none, rfl, rfl, .operator (.inr (.inr rfl))⟩
  · cases h

theorem operator?_complete (h : Takes .operator before taken rest part) :
    operator? (taken ++ rest) = some ⟨taken.length, part⟩ := by
  cases h with
  | operator hs => rcases hs with rfl | rfl | rfl <;> rfl

theorem number?_sound (h : number? before text = some hit) :
    ∃ taken rest part, text = taken ++ rest ∧ hit = ⟨taken.length, part⟩ ∧
      Takes .number before taken rest part := by
  unfold number? at h
  split at h
  case isFalse => cases h
  case isTrue hb =>
    obtain ⟨word, rest, rfl, hw, hr⟩ := exists_run Text.isWord text
    simp only [takeWhile_run hw hr] at h
    split at h
    case isFalse => cases h
    case isTrue hn =>
      cases h
      exact ⟨word, rest, none, rfl, rfl, .number hb hw hr hn⟩

theorem number?_complete (h : Takes .number before taken rest part) :
    number? before (taken ++ rest) = some ⟨taken.length, part⟩ := by
  cases h with
  | number hb hw hr hn => simp [number?, hb, takeWhile_run hw hr, hn]

theorem recognise_complete (h : Takes p before taken rest part) :
    p.recognise before (taken ++ rest) = some ⟨taken.length, part⟩ := by
  cases p with
  | comment => exact comment?_complete h
  | directive names => exact directive?_complete h
  | label => exact label?_complete h
  | arrayIndex => exact arrayIndex?_complete h
  | keyword words => exact keyword?_complete h
  | operator => exact operator?_complete h
  | number => exact number?_complete h

theorem recognise_iff : p.recognise before text = some hit ↔
    ∃ taken rest part, text = taken ++ rest ∧ hit = ⟨taken.length, part⟩ ∧
      Takes p before taken rest part := by
  constructor
  · intro h
    cases p with
    | comment => exact comment?_sound h
    | directive names => exact directive?_sound h
    | label => exact label?_sound h
    | arrayIndex => exact arrayIndex?_sound h
    | keyword words => exact keyword?_sound h
    | operator => exact operator?_sound h
    | number => exact number?_sound h
  · rintro ⟨taken, rest, part, rfl, rfl, h⟩
    exact recognise_complete h

end PioSyntax.Pattern

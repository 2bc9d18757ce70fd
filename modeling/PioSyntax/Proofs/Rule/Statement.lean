import PioSyntax.Proofs.Rule.Separator

namespace PioSyntax

open Text

namespace Pattern

variable {p : Pattern} {names : List Text} {name rest text : Text} {before : Option Char}
variable {hit : Hit}

def LeadsLine : Pattern → Prop
  | directive _ | label => True
  | comment | arrayIndex | keyword _ | operator | number => False

theorem LeadsLine.separates (hp : p.LeadsLine) : p.Separates '\n' := by
  cases p with
  | directive | label => exact ⟨rfl, rfl, by decide⟩
  | comment | arrayIndex | keyword | operator | number => exact hp.elim

theorem LeadsLine.ne_comment (hp : p.LeadsLine) : p ≠ .comment := by
  rintro rfl
  exact hp

theorem LeadsLine.startsLine (hp : p.LeadsLine) (h : p.recognise before text = some hit) :
    startsLine before = true := by
  obtain ⟨taken, rest, part, -, -, ht⟩ := recognise_iff.mp h
  cases ht with
  | directive hl | label hl | publicLabel hl => exact hl
  | lineComment | blockComment | openComment | arrayIndex | keyword | operator | number =>
      exact hp.elim

theorem directive?_iff : directive? names before text = some hit ↔ ∃ indent name rest,
    text = indent ++ ('.' :: name ++ rest) ∧ startsLine before = true ∧ IsBlanks indent ∧
      (∀ c ∈ name, isWord c = true) ∧ Stops isWord rest ∧
      (∃ n ∈ names, sameLetters name n = true) ∧
      hit = ⟨indent.length + ('.' :: name).length,
        some ⟨indent.length, indent.length + ('.' :: name).length⟩⟩ := by
  have hlen (indent name : Text) :
      indent.length + 1 + name.length = indent.length + ('.' :: name).length := by
    rw [List.length_cons]
    omega
  constructor
  · intro h
    obtain ⟨taken, rest, part, rfl, rfl, ht⟩ : ∃ taken rest part, text = taken ++ rest ∧
      hit = ⟨taken.length, part⟩ ∧ Takes (.directive names) before taken rest part :=
        directive?_sound h
    cases ht with
    | @directive _ _ indent name _ hl hi hw hr hn =>
        refine ⟨indent, name, rest, List.append_assoc _ _ _, hl, hi, hw, hr, hn, ?_⟩
        rw [List.length_append, hlen]
  · rintro ⟨indent, name, rest, rfl, hl, hi, hw, hr, hn, rfl⟩
    have h := directive?_complete (.directive hl hi hw hr hn)
    rwa [List.append_assoc, List.length_append, hlen] at h

end Pattern

namespace Rule

open Pattern

variable {r : Rule} {before : Option Char} {start : Nat} {text : Text} {u : Token}
variable {names : List Text}

theorem groupOf_one (hg : r.group = 1) (hit : Hit) : r.groupOf hit = hit.part := by
  rw [groupOf, if_neg (by omega), if_pos hg]

theorem getLast?_of_startsLine {pre : Text} {d : Char}
    (h : startsLine (charBefore before pre) = true) (hd : pre.getLast? = some d) : d = '\n' := by
  rw [charBefore, hd, Option.some_or] at h
  simpa [startsLine] using h

/-- What is looked for first on a line is found wherever it stands. -/
theorem mem_candidates_line (hp : r.pattern.LeadsLine) (hg : r.group = 1) :
    u ∈ r.candidates ⟨start, before, text⟩ ↔ ∃ pre rest hit part, text = pre ++ rest ∧
      r.pattern.recognise (charBefore before pre) rest = some hit ∧ hit.part = some part ∧
        part.start < part.stop ∧
        u = ⟨r.category, part.shift (start + pre.length), part.slice rest⟩ := by
  constructor
  · intro hu
    obtain ⟨f, hf, hu⟩ := List.mem_filterMap.mp hu
    obtain ⟨part, hpart, hne, rfl⟩ := token?_eq_some.mp hu
    obtain ⟨pre, htext, hstart, hr⟩ := mem_find hf
    rw [groupOf_one hg] at hpart
    dsimp only at htext hstart
    exact ⟨pre, f.text, f.hit, part, htext, hr, hpart, hne, by rw [hstart]⟩
  · rintro ⟨pre, rest, hit, part, rfl, hr, hpart, hne, rfl⟩
    have hlast (d : Char) (hd : pre.getLast? = some d) : r.pattern.Separates d := by
      rw [getLast?_of_startsLine (hp.startsLine hr) hd]
      exact hp.separates
    refine List.mem_filterMap.mpr ⟨_, mem_findFrom_of_recognise start hlast hp.ne_comment hr, ?_⟩
    exact token?_eq_some.mpr ⟨part, by rw [groupOf_one hg, hpart], hne, rfl⟩

theorem mem_candidates_directive (hp : r.pattern = .directive names) (hg : r.group = 1) :
    u ∈ r.candidates ⟨start, before, text⟩ ↔ ∃ pre indent name rest,
      text = pre ++ (indent ++ ('.' :: name ++ rest)) ∧
        startsLine (charBefore before pre) = true ∧ IsBlanks indent ∧
        (∀ c ∈ name, isWord c = true) ∧ Stops isWord rest ∧
        (∃ n ∈ names, sameLetters name n = true) ∧
        u = ⟨r.category, ⟨start + pre.length + indent.length,
          start + pre.length + (indent.length + ('.' :: name).length)⟩, '.' :: name⟩ := by
  rw [mem_candidates_line (by rw [hp]; trivial) hg, hp]
  constructor
  · rintro ⟨pre, rest, hit, part, rfl, hr, hpart, -, rfl⟩
    obtain ⟨indent, name, rest, rfl, hl, hi, hw, hstops, hn, rfl⟩ := directive?_iff.mp hr
    obtain rfl := Option.some.inj hpart
    refine ⟨pre, indent, name, rest, rfl, hl, hi, hw, hstops, hn, ?_⟩
    rw [Span.slice, between_middle]
    rfl
  · rintro ⟨pre, indent, name, rest, rfl, hl, hi, hw, hstops, hn, rfl⟩
    have hr := directive?_iff.mpr ⟨indent, name, rest, rfl, hl, hi, hw, hstops, hn, rfl⟩
    refine ⟨pre, _, _, _, rfl, hr, rfl, Nat.lt_add_of_pos_right (Nat.succ_pos _), ?_⟩
    rw [Span.slice, between_middle]
    rfl

end Rule

end PioSyntax

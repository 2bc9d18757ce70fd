import PioSyntax.Proofs.Rule.Statement
import PioSyntax.Proofs.Text.LastLine

namespace PioSyntax

open Text

namespace Pattern

def IsPublic (lead : Text) : Prop :=
  ∃ indent gap, lead = indent ++ ("public".toList ++ gap) ∧ IsBlanks indent ∧ IsBlanks gap ∧ gap ≠ []

variable {lead name rest text : Text} {before : Option Char} {hit : Hit}

theorem not_isPublic_of_isBlanks (h : IsBlanks lead) : ¬ IsPublic lead := by
  rintro ⟨indent, gap, rfl, -, -, -⟩
  have hp : isBlank 'p' = true := h 'p' (by simp)
  exact absurd hp (by decide)

theorem not_mem_lead {c : Char} (h : IsBlanks lead ∨ IsPublic lead) (hb : isBlank c = false)
    (hp : c ∉ "public".toList) : c ∉ lead := by
  rcases h with h | ⟨indent, gap, rfl, hi, hg, -⟩
  · exact not_mem_of_forall h hb
  · simp only [List.mem_append, not_or]
    exact ⟨not_mem_of_forall hi hb, hp, not_mem_of_forall hg hb⟩

theorem newline_not_mem_lead (h : IsBlanks lead ∨ IsPublic lead) : '\n' ∉ lead :=
  not_mem_lead h rfl (by decide)

theorem label?_iff : label? before text = some hit ↔ ∃ lead name rest,
    text = lead ++ (name ++ ':' :: rest) ∧ startsLine before = true ∧
      (IsBlanks lead ∨ IsPublic lead) ∧ IsName name ∧ Stops (· == ':') rest ∧
      hit = ⟨lead.length + name.length + 1, some ⟨lead.length, lead.length + name.length⟩⟩ := by
  constructor
  · intro h
    obtain ⟨taken, rest, part, rfl, rfl, ht⟩ : ∃ taken rest part, text = taken ++ rest ∧
      hit = ⟨taken.length, part⟩ ∧ Takes .label before taken rest part := label?_sound h
    cases ht with
    | @label _ indent name _ hl hi hn hr =>
        refine ⟨indent, name, rest, by simp, hl, .inl hi, hn, hr, ?_⟩
        simp only [List.length_append, List.length_singleton, Nat.add_assoc]
    | @publicLabel _ indent gap name _ hl hi hg hne hn hr =>
        refine ⟨indent ++ ("public".toList ++ gap), name, rest, by simp, hl,
          .inr ⟨indent, gap, rfl, hi, hg, hne⟩, hn, hr, ?_⟩
        have hp : "public".toList.length = 6 := rfl
        simp only [List.length_append, List.length_singleton, hp, Nat.add_assoc]
  · rintro ⟨lead, name, rest, rfl, hl, hlead, hn, hr, rfl⟩
    rcases hlead with hi | ⟨indent, gap, rfl, hi, hg, hne⟩
    · have h := label?_complete (.label hl hi hn hr)
      simpa [Nat.add_assoc] using h
    · have h := label?_complete (.publicLabel hl hi hg hne hn hr)
      have hp : "public".toList.length = 6 := rfl
      simpa only [List.length_append, List.length_singleton, hp, Nat.add_assoc, List.append_assoc,
        List.singleton_append] using h

end Pattern

namespace Rule

open Pattern

variable {r : Rule} {before : Option Char} {start : Nat} {text : Text} {u : Token}

theorem mem_candidates_label (hp : r.pattern = .label) (hg : r.group = 1) :
    u ∈ r.candidates ⟨start, before, text⟩ ↔ ∃ pre lead name rest,
      text = pre ++ (lead ++ (name ++ ':' :: rest)) ∧
        startsLine (charBefore before pre) = true ∧ (IsBlanks lead ∨ IsPublic lead) ∧ IsName name ∧
        Stops (· == ':') rest ∧
        u = ⟨r.category, ⟨start + pre.length + lead.length,
          start + pre.length + (lead.length + name.length)⟩, name⟩ := by
  rw [mem_candidates_line (by rw [hp]; trivial) hg, hp]
  constructor
  · rintro ⟨pre, rest, hit, part, rfl, hr, hpart, -, rfl⟩
    obtain ⟨lead, name, rest, rfl, hl, hlead, hn, hstops, rfl⟩ := label?_iff.mp hr
    obtain rfl := Option.some.inj hpart
    refine ⟨pre, lead, name, rest, rfl, hl, hlead, hn, hstops, ?_⟩
    rw [Span.slice, between_middle]
    rfl
  · rintro ⟨pre, lead, name, rest, rfl, hl, hlead, hn, hstops, rfl⟩
    have hr := label?_iff.mpr ⟨lead, name, rest, rfl, hl, hlead, hn, hstops, rfl⟩
    refine ⟨pre, _, _, _, rfl, hr, rfl, Nat.lt_add_of_pos_right hn.length_pos, ?_⟩
    rw [Span.slice, between_middle]
    rfl

end Rule

end PioSyntax

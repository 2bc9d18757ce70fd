import PioSyntax.Proofs.ForeignBlock.Lines
import PioSyntax.Proofs.Rule.Candidates

namespace PioSyntax

open Text

def Segment.stop (s : Segment) : Nat := s.start + s.text.length

theorem Segment.stop_ofSource {source : Text} {start stop : Nat} (h : start ≤ stop)
    (hs : stop ≤ source.length) : (Segment.ofSource source start stop).stop = stop := by
  rw [Segment.stop]
  simp only [Segment.ofSource, length_between hs]
  omega

theorem Segment.before_ofSource {source : Text} {start stop : Nat} (h : start ≤ source.length) :
    (Segment.ofSource source start stop).before = (source.take start).getLast? := by
  rw [Segment.ofSource, List.getLast?_take]
  by_cases h₀ : start = 0
  · rw [if_pos h₀, if_pos h₀]
  · rw [if_neg h₀, if_neg h₀, List.getElem?_eq_getElem (by omega), Option.some_or]

def Segment.IsPart (source : Text) (s : Segment) : Prop :=
  s.stop ≤ source.length ∧ s.text = source.between s.start s.stop

theorem Segment.isPart_ofSource {source : Text} {start stop : Nat} (h : start ≤ stop)
    (hs : stop ≤ source.length) : (Segment.ofSource source start stop).IsPart source := by
  rw [Segment.IsPart, Segment.stop_ofSource h hs]
  exact ⟨hs, rfl⟩

namespace ForeignBlock

variable {source : Text} {start stop : Nat} {blocks : List ForeignBlock} {b : ForeignBlock}
variable {t : Token} {s : Segment}

def region (b : ForeignBlock) : Span := ⟨b.head.start, (b.tail.getD b.body).stop⟩

def spanToken (source : Text) (c : Category) (s : Span) : List Token :=
  if s.IsEmpty then [] else [⟨c, s, s.slice source⟩]

theorem mem_spanToken {c : Category} {s : Span} :
    t ∈ spanToken source c s ↔ s.start < s.stop ∧ t = ⟨c, s, s.slice source⟩ := by
  rw [spanToken]
  split
  · next h => simpa using fun hs => absurd h (Nat.not_le_of_lt hs)
  · next h => simpa using fun _ => Nat.lt_of_not_le h

theorem spanToken_inOrder {c : Category} {s : Span} : Token.InOrder (spanToken source c s) := by
  rw [spanToken]
  split
  · exact Token.inOrder_nil
  · next h =>
      exact Token.inOrder_cons.mpr ⟨Nat.lt_of_not_le h, by simp, Token.inOrder_nil⟩

theorem tokens_eq (source : Text) (b : ForeignBlock) :
    b.tokens source =
      spanToken source .foreignBlockDelimiter b.head ++
        (spanToken source .foreignBlock b.body ++
          b.tail.elim [] (spanToken source .foreignBlockDelimiter)) := by
  obtain ⟨language, head, body, tail⟩ := b
  cases tail with
  | none =>
      simp only [tokens, Option.bind_none, Option.elim_none, spanToken]
      split <;> split <;> rfl
  | some s =>
      simp only [tokens, Option.bind_some, Option.elim_some, spanToken]
      split <;> split <;> split <;> rfl

theorem mem_tokens (h : t ∈ b.tokens source) :
    t.text = t.span.slice source ∧
      (t.category = .foreignBlockDelimiter ∨ t.category = .foreignBlock) := by
  rw [tokens_eq, List.mem_append, List.mem_append] at h
  rcases h with h | h | h
  · obtain ⟨-, rfl⟩ := mem_spanToken.mp h
    exact ⟨rfl, .inl rfl⟩
  · obtain ⟨-, rfl⟩ := mem_spanToken.mp h
    exact ⟨rfl, .inr rfl⟩
  · cases hb : b.tail with
    | none => simp [hb] at h
    | some s =>
        rw [hb] at h
        obtain ⟨-, rfl⟩ := mem_spanToken.mp h
        exact ⟨rfl, .inl rfl⟩

theorem Placed.token_bounds (h : Placed stop start blocks)
    (ht : t ∈ blocks.flatMap (·.tokens source)) : start ≤ t.span.start ∧ t.span.stop ≤ stop := by
  induction h with
  | nil => cases ht
  | unclosed hs hh hb hn he =>
      rw [List.flatMap_singleton, tokens_eq] at ht
      simp only [Option.elim_none, List.append_nil, List.mem_append, mem_spanToken] at ht
      rcases ht with ⟨-, rfl⟩ | ⟨-, rfl⟩ <;> dsimp only <;> omega
  | closed hs hh hb hn htail hm he _ ih =>
      rw [List.flatMap_cons, tokens_eq] at ht
      simp only [Option.elim_some, List.mem_append, mem_spanToken] at ht
      rcases ht with (⟨-, rfl⟩ | ⟨-, rfl⟩ | ⟨-, rfl⟩) | ht
      · dsimp only; omega
      · dsimp only; omega
      · dsimp only; omega
      · have := ih ht
        omega

theorem Placed.head_token_bounds {language : Text} {head body tail : Span}
    (h : Placed stop start (⟨language, head, body, some tail⟩ :: blocks))
    (ht : t ∈ tokens source ⟨language, head, body, some tail⟩) :
    head.start ≤ t.span.start ∧ t.span.stop ≤ tail.stop := by
  cases h with
  | closed hs hh hb hn htail hm he hrest =>
      have h : Placed tail.stop head.start [⟨language, head, body, some tail⟩] :=
        .closed (Nat.le_refl _) hh hb hn htail hm (Nat.le_refl _) .nil
      exact h.token_bounds (by rwa [List.flatMap_singleton])

theorem Placed.tokens_inOrder (h : Placed stop start blocks) :
    Token.InOrder (blocks.flatMap (·.tokens source)) := by
  induction h with
  | nil => exact Token.inOrder_nil
  | unclosed hs hh hb hn he =>
      rw [List.flatMap_singleton, tokens_eq, Option.elim_none, List.append_nil]
      refine Token.inOrder_append.mpr ⟨spanToken_inOrder, spanToken_inOrder, ?_⟩
      intro t ht u hu
      obtain ⟨-, rfl⟩ := mem_spanToken.mp ht
      obtain ⟨-, rfl⟩ := mem_spanToken.mp hu
      exact hb
  | @closed start language head body tail blocks hs hh hb hn htail hm he hrest ih =>
      have hblock : Placed stop start (⟨language, head, body, some tail⟩ :: blocks) :=
        .closed hs hh hb hn htail hm he hrest
      rw [List.flatMap_cons]
      refine Token.inOrder_append.mpr ⟨?_, ih, fun t ht u hu =>
        Nat.le_trans (hblock.head_token_bounds ht).2 (hrest.token_bounds hu).1⟩
      rw [tokens_eq, Option.elim_some]
      refine Token.inOrder_append.mpr ⟨spanToken_inOrder,
        Token.inOrder_append.mpr ⟨spanToken_inOrder, spanToken_inOrder, ?_⟩, ?_⟩
      · intro t ht u hu
        obtain ⟨-, rfl⟩ := mem_spanToken.mp ht
        obtain ⟨-, rfl⟩ := mem_spanToken.mp hu
        exact htail
      · intro t ht u hu
        obtain ⟨-, rfl⟩ := mem_spanToken.mp ht
        rcases List.mem_append.mp hu with hu | hu
        · obtain ⟨-, rfl⟩ := mem_spanToken.mp hu
          exact hb
        · obtain ⟨-, rfl⟩ := mem_spanToken.mp hu
          exact Nat.le_trans hb (Nat.le_trans hn htail)

theorem Placed.head_bounds (h : Placed stop start blocks) (hb : b ∈ blocks) :
    start ≤ b.head.start ∧ b.head.start < b.head.stop ∧ b.head.stop ≤ stop := by
  induction h with
  | nil => cases hb
  | unclosed hs hh hb' hn he =>
      obtain rfl := List.mem_singleton.mp hb
      dsimp only
      omega
  | closed hs hh hb' hn ht hm he _ ih =>
      rcases List.mem_cons.mp hb with rfl | hb
      · dsimp only
        omega
      · have := ih hb
        omega

theorem Placed.lt_body_start (h : Placed stop start blocks) (hb : b ∈ blocks) :
    start < b.body.start := by
  induction h with
  | nil => cases hb
  | unclosed hs hh hbody hn he =>
      obtain rfl := List.mem_singleton.mp hb
      exact Nat.lt_of_le_of_lt hs (Nat.lt_of_lt_of_le hh hbody)
  | closed hs hh hbody hn ht hm he _ ih =>
      rcases List.mem_cons.mp hb with rfl | hb
      · exact Nat.lt_of_le_of_lt hs (Nat.lt_of_lt_of_le hh hbody)
      · have := ih hb
        omega

/-- A block is known by where its body starts. -/
theorem Placed.eq_of_body_start {b' : ForeignBlock} (h : Placed stop start blocks) (hb : b ∈ blocks)
    (hb' : b' ∈ blocks) (he : b.body.start = b'.body.start) : b = b' := by
  induction h with
  | nil => cases hb
  | unclosed =>
      rw [List.mem_singleton.mp hb, List.mem_singleton.mp hb']
  | @closed start language head body tail blocks hs hh hbody hn ht hm _ hrest ih =>
      have hlater : ∀ b ∈ blocks, body.start < b.body.start := fun b hb => by
        have := hrest.lt_body_start hb
        omega
      rcases List.mem_cons.mp hb with rfl | hb
      · rcases List.mem_cons.mp hb' with rfl | hb'
        · rfl
        · exact absurd he (Nat.ne_of_lt (hlater b' hb'))
      · rcases List.mem_cons.mp hb' with rfl | hb'
        · exact absurd he.symm (Nat.ne_of_lt (hlater b hb))
        · exact ih hb hb'

theorem Placed.segments (h : Placed source.length start blocks) (hs : start ≤ source.length) :
    (∀ s ∈ segmentsFrom source start blocks, start ≤ s.start ∧ s.IsPart source) ∧
      (segmentsFrom source start blocks).Pairwise fun s s' => s.stop ≤ s'.start := by
  induction h with
  | nil =>
      simp only [segmentsFrom, List.mem_singleton, List.pairwise_singleton, and_true]
      rintro s rfl
      exact ⟨Nat.le_refl _, Segment.isPart_ofSource hs (Nat.le_refl _)⟩
  | @unclosed start language head body hstart hh hb hn he =>
      have hle : head.start ≤ source.length := by omega
      simp only [segmentsFrom, Option.elim_none, List.forall_mem_cons, List.pairwise_cons,
        List.not_mem_nil, false_imp_iff, implies_true, and_true, List.Pairwise.nil,
        Segment.stop_ofSource hstart hle]
      exact ⟨⟨⟨Nat.le_refl _, Segment.isPart_ofSource hstart hle⟩,
        hs, Segment.isPart_ofSource (Nat.le_refl _) (Nat.le_refl _)⟩, hle⟩
  | @closed start language head body tail blocks hstart hh hb hn ht hm he _ ih =>
      have hle : head.start ≤ source.length := by omega
      obtain ⟨hparts, hpair⟩ := ih he
      simp only [segmentsFrom, Option.elim_some, List.forall_mem_cons, List.pairwise_cons,
        Segment.stop_ofSource hstart hle]
      refine ⟨⟨⟨Nat.le_refl _, Segment.isPart_ofSource hstart hle⟩, fun s hm => ?_⟩,
        fun s hm => ?_, hpair⟩
      · have := hparts s hm
        exact ⟨by omega, this.2⟩
      · have := hparts s hm
        omega

theorem Placed.segment_before (h : Placed source.length start blocks) (hs : start ≤ source.length)
    (hm : s ∈ segmentsFrom source start blocks) : s.before = (source.take s.start).getLast? := by
  induction h with
  | nil =>
      obtain rfl := List.mem_singleton.mp hm
      exact Segment.before_ofSource hs
  | unclosed hstart hh hb hn he =>
      simp only [segmentsFrom, Option.elim_none, List.mem_cons, List.not_mem_nil, or_false] at hm
      rcases hm with rfl | rfl
      · exact Segment.before_ofSource hs
      · exact Segment.before_ofSource (Nat.le_refl _)
  | closed hstart hh hb hn ht hm' he _ ih =>
      rcases List.mem_cons.mp hm with rfl | hm
      · exact Segment.before_ofSource hs
      · exact ih he hm

theorem Placed.segment_isAt (h : Placed source.length start blocks) (hs : start ≤ source.length)
    (hm : s ∈ segmentsFrom source start blocks) : IsAt source s.start s.text := by
  obtain ⟨-, hstop, htext⟩ := (h.segments hs).1 s hm
  rw [htext]
  exact isAt_between (Nat.le_trans (Nat.le_add_right _ _) hstop)

theorem Placed.token_region (h : Placed stop start blocks) (hb : b ∈ blocks)
    (ht : t ∈ b.tokens source) : b.region.start ≤ t.span.start ∧ t.span.stop ≤ b.region.stop := by
  induction h with
  | nil => cases hb
  | @unclosed start language head body hs hh hbody hn he =>
      obtain rfl := List.mem_singleton.mp hb
      have hplaced : Placed body.stop head.start [⟨language, head, body, none⟩] :=
        .unclosed (Nat.le_refl _) hh hbody hn rfl
      exact hplaced.token_bounds (by rwa [List.flatMap_singleton])
  | closed hs hh hbody hn htail hm he hrest ih =>
      rcases List.mem_cons.mp hb with rfl | hb
      · exact (Placed.closed hs hh hbody hn htail hm he hrest).head_token_bounds ht
      · exact ih hb

theorem Placed.segment_region (h : Placed source.length start blocks)
    (hs : s ∈ segmentsFrom source start blocks) (hb : b ∈ blocks) :
    s.stop ≤ b.region.start ∨ b.region.stop ≤ s.start := by
  induction h with
  | nil => cases hb
  | @unclosed start language head body hstart hh hbody hn he =>
      obtain rfl := List.mem_singleton.mp hb
      have hle : head.start ≤ source.length := by omega
      simp only [segmentsFrom, Option.elim_none, List.mem_cons, List.not_mem_nil, or_false] at hs
      rcases hs with rfl | rfl
      · rw [Segment.stop_ofSource hstart hle]
        exact .inl (Nat.le_refl _)
      · exact .inr (Nat.le_of_eq he)
  | @closed start language head body tail blocks hstart hh hbody hn htail hm he hrest ih =>
      have hle : head.start ≤ source.length := by omega
      simp only [segmentsFrom, Option.elim_some, List.mem_cons] at hs
      rcases List.mem_cons.mp hb with rfl | hb
      · rcases hs with rfl | hs
        · rw [Segment.stop_ofSource hstart hle]
          exact .inl (Nat.le_refl _)
        · exact .inr ((hrest.segments he).1 s hs).1
      · rcases hs with rfl | hs
        · rw [Segment.stop_ofSource hstart hle]
          have htail : head.start ≤ tail.stop := by omega
          exact .inl (Nat.le_trans htail (hrest.head_bounds hb).1)
        · exact ih hs hb

theorem Placed.segment_apart (h : Placed source.length start blocks)
    (hs : s ∈ segmentsFrom source start blocks) (ht : t ∈ blocks.flatMap (·.tokens source)) :
    s.stop ≤ t.span.start ∨ t.span.stop ≤ s.start := by
  obtain ⟨b, hb, ht⟩ := List.mem_flatMap.mp ht
  have htoken := h.token_region hb ht
  have hapart := h.segment_region hs hb
  omega

end ForeignBlock

end PioSyntax

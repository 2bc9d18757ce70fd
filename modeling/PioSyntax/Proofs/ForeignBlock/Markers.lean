import PioSyntax.Proofs.ForeignBlock.Delimiter
import PioSyntax.Proofs.Text.Between

namespace PioSyntax.ForeignBlock

open Text

def IsHead (language marker : Text) : Prop :=
  ∃ gap space, marker = '%' :: (gap ++ (language ++ (space ++ ['{']))) ∧ IsBlanks gap ∧
    IsLanguage language ∧ IsBlanks space

def tailMarker : Text := ['%', '}']

inductive Opens (source : Text) : (language : Text) → (head : Span) → (start : Nat) → Prop
  | mk {pre text : Text} {o : Opening} (hs : source = pre ++ text)
      (h : opening? pre.getLast? text = some o) :
      Opens source o.language (o.marker.shift pre.length) (pre.length + o.size)

inductive Closes (source : Text) : (stop : Nat) → (tail : Option Span) → Prop
  | finished : Closes source source.length none
  | closed {pre text : Text} {t : Closing} (hs : source = pre ++ text)
      (h : closing? pre.getLast? text = some t) :
      Closes source pre.length (some (t.marker.shift pre.length))

def Place.Opened (source : Text) : Place → Prop
  | .outside => True
  | .inside language head start => Opens source language head start

variable {source text pre language marker : Text} {place : Place} {skip start stop : Nat}
variable {head tail : Span} {b : ForeignBlock} {c : Char}

theorem findFrom_lines (h : source = pre ++ text) (hp : place.Opened source) :
    ∀ b ∈ findFrom place skip pre.getLast? pre.length text,
      Opens source b.language b.head b.body.start ∧ Closes source b.body.stop b.tail := by
  induction text generalizing place skip pre with
  | nil =>
      cases place with
      | outside => simp [findFrom]
      | inside language head start =>
          intro b hb
          obtain rfl := List.mem_singleton.mp hb
          rw [List.append_nil] at h
          exact ⟨hp, h ▸ .finished⟩
  | cons c text ih =>
      have hnext : source = (pre ++ [c]) ++ text := by rw [h, List.append_assoc]; rfl
      have later {place : Place} {skip : Nat} (hp : place.Opened source) :
          ∀ b ∈ findFrom place skip (some c) (pre.length + 1) text,
            Opens source b.language b.head b.body.start ∧ Closes source b.body.stop b.tail := by
        have hb : ∀ b ∈ findFrom place skip (pre ++ [c]).getLast? (pre ++ [c]).length text,
            Opens source b.language b.head b.body.start ∧ Closes source b.body.stop b.tail :=
          ih hnext hp
        rwa [List.getLast?_concat, List.length_append] at hb
      cases skip with
      | succ skip => exact later hp
      | zero =>
          cases place with
          | outside =>
              simp only [findFrom]
              split
              · next o ho => exact later (.mk h ho)
              · exact later trivial
          | inside language head start =>
              simp only [findFrom]
              split
              · next t ht => exact List.forall_mem_cons.mpr ⟨⟨hp, .closed h ht⟩, later trivial⟩
              · exact later hp

/-- Every block comes from the lines of its markers. -/
theorem find_lines (source : Text) (hb : b ∈ find source) :
    Opens source b.language b.head b.body.start ∧ Closes source b.body.stop b.tail := by
  have hplace : Place.outside.Opened source := trivial
  exact findFrom_lines (List.nil_append source).symm hplace b hb

theorem Opens.isHead (h : Opens source language head start) : ∃ marker,
    IsHead language marker ∧ IsAt source head.start marker ∧
      head.stop = head.start + marker.length := by
  cases h with
  | @mk pre text o hs ho =>
      obtain ⟨-, line, rest, rfl, hline, -, -⟩ := opening?_sound ho
      generalize o.marker = marker, o.language = language at hline
      cases hline with
      | @mk indent gap _ space final cr hi hg hl hsp hf hr =>
          refine ⟨_, ⟨gap, space, rfl, hg, hl, hsp⟩, ⟨pre ++ indent, final ++ (cr ++ rest), ?_, ?_⟩, ?_⟩
          · simp [hs]
          · simp [Span.shift]
          · simp only [Span.shift, List.length_append, List.length_cons, List.length_nil]
            omega

theorem Closes.isTail (h : Closes source stop (some tail)) :
    IsAt source tail.start tailMarker ∧ tail.stop = tail.start + 2 := by
  cases h with
  | @closed pre text t hs ht =>
      obtain ⟨-, line, rest, rfl, hline, -, -⟩ := closing?_sound ht
      generalize t.marker = marker at hline
      cases hline with
      | @mk indent final cr =>
          refine ⟨⟨pre ++ indent, final ++ (cr ++ rest), ?_, ?_⟩, ?_⟩
          · simp [hs, tailMarker]
          · simp [Span.shift]
          · simp only [Span.shift]
            omega

theorem IsHead.not_mem_newline (h : IsHead language marker) : '\n' ∉ marker := by
  obtain ⟨gap, space, rfl, hg, hl, hs⟩ := h
  simp [not_mem_of_forall hg (c := '\n') rfl, not_mem_of_forall hs (c := '\n') rfl,
    hl.not_mem (c := '\n') (by decide)]

end PioSyntax.ForeignBlock

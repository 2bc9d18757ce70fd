import PioSyntax.Dump
import PioSyntax.Proofs.Classification.Tiling
import PioSyntax.Proofs.ForeignBlock.Unclosed
import PioSyntax.Proofs.Pattern.Grammar
import PioSyntax.Proofs.Position
import PioSyntax.Proofs.Text.Decimal
import PioSyntax.Proofs.Text.Marks
import PioSyntax.Proofs.Text.Quoted

namespace PioSyntax.Dump

open Text

structure Place where
  line : Nat
  column : Nat
deriving DecidableEq

structure Entry where
  start : Place
  stop : Place
  category : Category
  text : Text
deriving DecidableEq

structure Notice where
  place : Place
  language : Text
deriving DecidableEq

def place? (text : Text) : Option Place := do
  let (line, column) ← cut? ':' text
  return ⟨← number? line, ← number? column⟩

/-- Reads a line of the form `line:column-line:column CATEGORY 'text'`. -/
def entryOf? (line : Text) : Option Entry := do
  let (start, rest) ← cut? '-' line
  let (stop, rest) ← cut? ' ' rest
  let (category, rest) ← cut? ' ' rest
  return ⟨← place? start, ← place? stop, ← Category.ofName? category, ← unquote? rest⟩

/-- Reads a line of the form `line:column unterminated language block`. -/
def notice? (line : Text) : Option Notice := do
  let (place, rest) ← cut? ' ' line
  let (language, rest) ← cut? ' ' (← after? "unterminated " rest)
  if rest = ("block" : Text) then return ⟨← place? place, language⟩ else none

namespace Place

/-- There is one line more than line feeds before an offset, and one column more than characters
since the last of them. -/
def ofOffset (source : Text) (offset : Nat) : Place :=
  ⟨(source.take offset).count '\n' + 1, (lastLine (source.take offset)).length + 1⟩

def offset? (index : LineIndex) (p : Place) : Option Nat :=
  index.starts[p.line - 1]?.map fun start => start + (p.column - 1)

def toText (p : Place) : Text := ofNat p.line ++ ':' :: ofNat p.column

end Place

def Entry.span? (index : LineIndex) (e : Entry) : Option Span := do
  return ⟨← e.start.offset? index, ← e.stop.offset? index⟩

/-- The line gives the category, the text and the place of both ends of the token; and from these,
with the line starts of the source, its span. -/
structure Records (source line : Text) (t : Token) : Prop where
  entry : entryOf? line =
    some ⟨.ofOffset source t.span.start, .ofOffset source t.span.stop, t.category, t.text⟩
  span : (entryOf? line).bind (·.span? (.ofText source)) = some t.span

def Announces (source line : Text) (b : ForeignBlock) : Prop :=
  notice? line = some ⟨.ofOffset source b.head.start, b.language⟩

def tokenLine (source : Text) (t : Token) : Text :=
  (Place.ofOffset source t.span.start).toText ++ '-' ::
    ((Place.ofOffset source t.span.stop).toText ++ ' ' ::
      (t.category.name ++ ' ' :: quoted t.text))

def blockLine (source : Text) (b : ForeignBlock) : Text :=
  (Place.ofOffset source b.head.start).toText ++ ' ' ::
    ("unterminated " ++ (b.language ++ ' ' :: "block"))

variable {source : Text} {t : Token} {b : ForeignBlock} {c : Char} {n : Nat}

theorem place_position (h : n ≤ source.length) :
    place ((LineIndex.ofText source).position n) = (Place.ofOffset source n).toText := by
  rw [LineIndex.position_of_le h]
  simp only [place, ofInt, Place.toText, Place.ofOffset, List.append_assoc]
  rfl

theorem Place.offset?_ofOffset (h : n ≤ source.length) :
    (Place.ofOffset source n).offset? (.ofText source) = some n := by
  have hline : (lastLine (source.take n)).length ≤ (source.take n).length :=
    (List.rtakeWhile_suffix _ _).length_le
  rw [List.length_take, Nat.min_eq_left h] at hline
  simp only [offset?, ofOffset, Nat.add_sub_cancel]
  rw [LineIndex.getElem?_starts, List.length_take, Nat.min_eq_left h, Option.map_some,
    Nat.sub_add_cancel hline]

theorem Place.not_mem_toText (p : Place) (hc : c.isDigit = false) (hcolon : c ≠ ':') :
    c ∉ p.toText := by
  simp [toText, not_mem_ofNat hc, hcolon]

theorem place?_toText (p : Place) : place? p.toText = some p := by
  rw [place?, Place.toText, cut?_append (not_mem_ofNat rfl)]
  simp only [Option.bind_eq_bind, Option.bind_some, number?_ofNat]
  rfl

theorem name_ordinary (c : Category) : ' ' ∉ c.name ∧ '\n' ∉ c.name := by
  cases c <;> decide

theorem entryOf?_tokenLine (source : Text) (t : Token) : entryOf? (tokenLine source t) =
    some ⟨.ofOffset source t.span.start, .ofOffset source t.span.stop, t.category, t.text⟩ := by
  have hstart := (Place.ofOffset source t.span.start).not_mem_toText (c := '-') rfl (by decide)
  have hstop := (Place.ofOffset source t.span.stop).not_mem_toText (c := ' ') rfl (by decide)
  rw [entryOf?, tokenLine, cut?_append hstart]
  simp only [Option.bind_eq_bind, Option.bind_some, cut?_append hstop,
    cut?_append (name_ordinary t.category).1, place?_toText, Category.ofName?_name, unquote?_quoted]
  rfl

theorem records_tokenLine (h : t.IsPart source) : Records source (tokenLine source t) t := by
  have hentry := entryOf?_tokenLine source t
  refine ⟨hentry, ?_⟩
  have hstart : t.span.start ≤ source.length := Nat.le_trans (Nat.le_of_lt h.1) h.2.1
  rw [hentry, Option.bind_some, Entry.span?, Place.offset?_ofOffset hstart,
    Place.offset?_ofOffset h.2.1]
  rfl

theorem token_eq (h : t.IsPart source) :
    token (.ofText source) t = tokenLine source t ++ ['\n'] := by
  have hstart : t.span.start ≤ source.length := Nat.le_trans (Nat.le_of_lt h.1) h.2.1
  have hdash : "-".toList = ['-'] := rfl
  have hspace : " ".toList = [' '] := rfl
  have hbreak : "\n".toList = ['\n'] := rfl
  rw [token, tokenLine, place_position hstart, place_position h.2.1, hdash, hspace, hbreak]
  simp

theorem newline_not_mem_tokenLine (source : Text) (t : Token) : '\n' ∉ tokenLine source t := by
  have hstart := (Place.ofOffset source t.span.start).not_mem_toText (c := '\n') rfl (by decide)
  have hstop := (Place.ofOffset source t.span.stop).not_mem_toText (c := '\n') rfl (by decide)
  simp [tokenLine, hstart, hstop, (name_ordinary t.category).2, newline_not_mem_quoted]

theorem announces_blockLine (h : ForeignBlock.IsLanguage b.language) :
    Announces source (blockLine source b) b := by
  have hplace := (Place.ofOffset source b.head.start).not_mem_toText (c := ' ') rfl (by decide)
  have hlanguage : ' ' ∉ b.language := h.not_mem (by decide)
  rw [Announces, notice?, blockLine, cut?_append hplace]
  simp only [Option.bind_eq_bind, Option.bind_some, Pattern.after?_iff.mpr rfl,
    cut?_append hlanguage, place?_toText]
  rfl

theorem newline_not_mem_blockLine (h : ForeignBlock.IsLanguage b.language) :
    '\n' ∉ blockLine source b := by
  have hplace := (Place.ofOffset source b.head.start).not_mem_toText (c := '\n') rfl (by decide)
  have hlanguage : '\n' ∉ b.language := h.not_mem (by decide)
  simp [blockLine, hplace, hlanguage]

theorem block_eq (hb : b.terminated = false) (h : b.head.start ≤ source.length) :
    block (.ofText source) b = blockLine source b ++ ['\n'] := by
  rw [block, hb, blockLine, place_position h]
  have hunterminated : " unterminated ".toList = ' ' :: "unterminated ".toList := rfl
  have hblock : " block\n".toList = ' ' :: ("block".toList ++ ['\n']) := rfl
  rw [hunterminated, hblock]
  simp

theorem block_eq_nil (hb : b.terminated = true) (index : LineIndex) : block index b = [] := by
  rw [block, if_pos hb]

theorem flatMap_token {tokens : List Token} (h : ∀ t ∈ tokens, t.IsPart source) :
    tokens.flatMap (token (.ofText source)) = unlines (tokens.map (tokenLine source)) := by
  rw [unlines, List.flatMap_map]
  exact List.flatMap_congr fun t ht => token_eq (h t ht)

theorem flatMap_block {blocks : List ForeignBlock}
    (h : ∀ b ∈ blocks, b.head.start ≤ source.length) :
    blocks.flatMap (block (.ofText source)) =
      unlines ((blocks.filter (!·.terminated)).map (blockLine source)) := by
  induction blocks with
  | nil => rfl
  | cons b blocks ih =>
      obtain ⟨hb, hrest⟩ := List.forall_mem_cons.mp h
      rw [List.flatMap_cons, ih hrest]
      cases ht : b.terminated with
      | true => rw [block_eq_nil ht, List.filter_cons_of_neg (by simp [ht]), List.nil_append]
      | false =>
          rw [block_eq ht hb, List.filter_cons_of_pos (by simp [ht]), List.map_cons, unlines_cons,
            List.append_assoc, List.singleton_append]

theorem length_filter_unclosed (source : Text) :
    ((ForeignBlock.find source).filter (!·.terminated)).length ≤ 1 := by
  have none_of_closed {blocks : List ForeignBlock} (h : ∀ b ∈ blocks, b.terminated = true) :
      blocks.filter (!·.terminated) = [] :=
    List.filter_eq_nil_iff.mpr fun b hb => by simp [h b hb]
  rcases (ForeignBlock.placed_find source).unclosed_last with hall | ⟨closed, last, he, hc, hl⟩
  · simp [none_of_closed hall]
  · rw [he, List.filter_append, none_of_closed hc, List.nil_append]
    exact List.length_filter_le _ _

/-- The dump has one line for each token and one for the block that is never closed, and no others.
Each line gives back what it was written for. -/
theorem render_lines (source : Text) :
    ∃ lines notices, render (classify source) = unlines (lines ++ notices) ∧
      (∀ line ∈ lines ++ notices, '\n' ∉ line) ∧
      List.Forall₂ (Records source) lines (classify source).tokens ∧
      List.Forall₂ (Announces source) notices
        ((classify source).blocks.filter (!·.terminated)) ∧
      notices.length ≤ 1 := by
  have hpart : ∀ t ∈ (classify source).tokens, t.IsPart source :=
    fun t ht => Classification.isPart_of_mem ht
  have hhead : ∀ b ∈ (classify source).blocks, b.head.start ≤ source.length := by
    intro b hb
    obtain ⟨-, hs, he⟩ := (ForeignBlock.placed_find source).head_bounds hb
    exact Nat.le_trans (Nat.le_of_lt hs) he
  have hlanguage : ∀ b ∈ (classify source).blocks.filter (!·.terminated),
      ForeignBlock.IsLanguage b.language :=
    fun b hb => ForeignBlock.isLanguage_of_mem_find (List.mem_of_mem_filter hb)
  refine ⟨(classify source).tokens.map (tokenLine source),
    ((classify source).blocks.filter (!·.terminated)).map (blockLine source), ?_, ?_, ?_, ?_, ?_⟩
  · rw [unlines, List.flatMap_append, ← unlines, ← unlines, ← flatMap_token hpart,
      ← flatMap_block hhead]
    rfl
  · simp only [List.forall_mem_append, List.forall_mem_map]
    exact ⟨fun t _ => newline_not_mem_tokenLine source t,
      fun b hb => newline_not_mem_blockLine (hlanguage b hb)⟩
  · exact List.forall₂_map_left_iff.mpr
      (List.forall₂_same.mpr fun t ht => records_tokenLine (hpart t ht))
  · exact List.forall₂_map_left_iff.mpr
      (List.forall₂_same.mpr fun b hb => announces_blockLine (hlanguage b hb))
  · rw [List.length_map]
    exact length_filter_unclosed source

end PioSyntax.Dump

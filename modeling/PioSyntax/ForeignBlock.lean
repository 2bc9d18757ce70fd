import PioSyntax.Pattern

namespace PioSyntax

open Text Pattern

namespace ForeignBlock

def lineRest? (text : Text) : Option Nat :=
  let n := blanks text
  match text.drop n with
  | [] => some n
  | '\n' :: _ => some (n + 1)
  | ['\r'] => some (n + 1)
  | '\r' :: '\n' :: _ => some (n + 2)
  | _ => none

def isLanguageChar (c : Char) : Bool := isWord c || c == '-'

def languageName : Text → Text
  | [] => []
  | c :: cs => if isNameStart c then c :: cs.takeWhile isLanguageChar else []

/-- A line that opens a block, with `size` characters up to the next line. -/
structure Opening where
  language : Text
  marker : Span
  size : Nat

def opening? (before : Option Char) (text : Text) : Option Opening :=
  if startsLine before then
    let indent := blanks text
    match text.drop indent with
    | '%' :: rest =>
      let named := rest.drop (blanks rest)
      let language := languageName named
      let braced := named.drop language.length
      match language, braced.drop (blanks braced) with
      | _ :: _, '{' :: final =>
        let stop := indent + 1 + blanks rest + language.length + blanks braced + 1
        (lineRest? final).map fun n => ⟨language, ⟨indent, stop⟩, stop + n⟩
      | _, _ => none
    | _ => none
  else none

structure Closing where
  marker : Span
  size : Nat

def closing? (before : Option Char) (text : Text) : Option Closing :=
  if startsLine before then
    let indent := blanks text
    match text.drop indent with
    | '%' :: '}' :: final =>
      (lineRest? final).map fun n => ⟨⟨indent, indent + 2⟩, indent + 2 + n⟩
    | _ => none
  else none

/-- Where a search for blocks is: outside all of them, or in one whose body began at `start`. -/
inductive Place where
  | outside
  | inside (language : Text) (head : Span) (start : Nat)

/-- Finds the blocks of a source from left to right, in a rest of it at `offset`. Of the opening or
closing line found last, `skip` characters are left. -/
def findFrom (place : Place) (skip : Nat) (before : Option Char) (offset : Nat) :
    Text → List ForeignBlock
  | [] =>
    match place with
    | .outside => []
    | .inside language head start => [⟨language, head, ⟨start, offset⟩, none⟩]
  | c :: cs =>
    match skip with
    | skip + 1 => findFrom place skip (some c) (offset + 1) cs
    | 0 =>
      match place with
      | .outside =>
        match opening? before (c :: cs) with
        | some o =>
          findFrom (.inside o.language (o.marker.shift offset) (offset + o.size)) (o.size - 1)
            (some c) (offset + 1) cs
        | none => findFrom .outside 0 (some c) (offset + 1) cs
      | .inside language head start =>
        match closing? before (c :: cs) with
        | some t =>
          ⟨language, head, ⟨start, offset⟩, some (t.marker.shift offset)⟩ ::
            findFrom .outside (t.size - 1) (some c) (offset + 1) cs
        | none => findFrom place 0 (some c) (offset + 1) cs

def find (source : Text) : List ForeignBlock := findFrom .outside 0 none 0 source

end ForeignBlock

end PioSyntax

import PioSyntax.Token
import PioSyntax.Text.CaseFold
import PioSyntax.Text.Digit
import PioSyntax.Text.WordChar

namespace PioSyntax

open Text

structure Hit where
  size : Nat
  part : Option Span
deriving DecidableEq

inductive Pattern where
  | comment
  | directive (names : List Text)
  | label
  | arrayIndex
  | keyword (words : List Text)
  | operator
  | number
deriving DecidableEq

namespace Pattern

def startsLine (before : Option Char) : Bool := before.all (· == '\n')

def endsWord (text : Text) : Bool := !text.head?.any isWord

def startsWord (before : Option Char) : Bool := !before.any isWord

def onLine (c : Char) : Bool := c != '\n' && c != '\r'

def blockLength : Text → Nat
  | '*' :: '/' :: _ => 2
  | _ :: cs => blockLength cs + 1
  | [] => 0

def comment? : Text → Option Hit
  | ';' :: cs => some ⟨1 + (cs.takeWhile onLine).length, none⟩
  | '/' :: '/' :: cs => some ⟨2 + (cs.takeWhile onLine).length, none⟩
  | '/' :: '*' :: cs => some ⟨2 + blockLength cs, none⟩
  | _ => none

def directive? (names : List Text) (before : Option Char) (text : Text) : Option Hit :=
  if startsLine before then
    let indent := blanks text
    match text.drop indent with
    | '.' :: rest =>
      let name := rest.takeWhile isWord
      let stop := indent + 1 + name.length
      if names.any (sameLetters name) then some ⟨stop, some ⟨indent, stop⟩⟩ else none
    | _ => none
  else none

def labelLength? : Text → Option Nat
  | [] => none
  | c :: cs =>
    if isNameStart c then
      let n := (cs.takeWhile isWord).length
      match cs.drop n with
      | ':' :: ':' :: _ => none
      | ':' :: _ => some (n + 1)
      | _ => none
    else none

def publicLength? (text : Text) : Option Nat :=
  (after? "public" text).bind fun rest => if blanks rest = 0 then none else some (6 + blanks rest)

def label? (before : Option Char) (text : Text) : Option Hit :=
  if startsLine before then
    let indent := blanks text
    let rest := text.drop indent
    let published := (publicLength? rest).bind fun n =>
      (labelLength? (rest.drop n)).map fun size => (indent + n, size)
    let found := published.or ((labelLength? rest).map fun size => (indent, size))
    found.map fun (start, size) => ⟨start + size + 1, some ⟨start, start + size⟩⟩
  else none

def inBrackets (c : Char) : Bool := c != ']' && onLine c

def arrayIndex? : Text → Option Hit
  | '[' :: cs =>
    let n := (cs.takeWhile inBrackets).length
    if n ≠ 0 && (cs.drop n).head? == some ']' then some ⟨n + 2, some ⟨1, n + 1⟩⟩ else none
  | _ => none

def standsAt (text word : Text) : Bool :=
  startsWithWord word text && endsWord (text.drop word.length)

def isSeries : List Text → Bool
  | [] => false
  | w :: words =>
    !w.isEmpty && words.all (fun v => !v.isEmpty && v.dropLast = w.dropLast) && words.any (· ≠ w)

/-- The words that a search can find. No words at all amount to the empty word. In a series, a word
whose last character is a capital beyond the basic plane is never found. -/
def findable (words : List Text) : List Text :=
  if words.isEmpty then [[]]
  else if isSeries words then words.filter fun w => !w.getLast?.any isHighCapital
  else words

def keyword? (words : List Text) (before : Option Char) (text : Text) : Option Hit :=
  if startsWord before && before != some '.' then
    (((findable words).filter (standsAt text)).map List.length).max?.map (⟨·, none⟩)
  else none

def operator? : Text → Option Hit
  | ':' :: ':' :: _ => some ⟨2, none⟩
  | '!' :: _ => some ⟨1, none⟩
  | '~' :: _ => some ⟨1, none⟩
  | _ => none

def isDecimal (word : Text) : Bool := !word.isEmpty && word.all Char.isDigit

def isNumber (word : Text) : Bool :=
  match word with
  | '0' :: 'x' :: digits => !digits.isEmpty && digits.all isHexDigit
  | '0' :: 'X' :: digits => !digits.isEmpty && digits.all isHexDigit
  | '0' :: 'b' :: digits => !digits.isEmpty && digits.all isBinaryDigit
  | '0' :: 'B' :: digits => !digits.isEmpty && digits.all isBinaryDigit
  | _ => isDecimal word

def number? (before : Option Char) (text : Text) : Option Hit :=
  if startsWord before then
    let word := text.takeWhile isWord
    if isNumber word then some ⟨word.length, none⟩ else none
  else none

def recognise : Pattern → Option Char → Text → Option Hit
  | comment, _, text => comment? text
  | directive names, before, text => directive? names before text
  | label, before, text => label? before text
  | arrayIndex, _, text => arrayIndex? text
  | keyword words, before, text => keyword? words before text
  | operator, _, text => operator? text
  | number, before, text => number? before text

def marksPart : Pattern → Bool
  | directive _ | label | arrayIndex => true
  | comment | keyword _ | operator | number => false

end Pattern

/-- A stretch of source that rules may look at, with the character before it. Nothing after the
stretch is visible. -/
structure Segment where
  start : Nat
  before : Option Char
  text : Text

def Segment.ofSource (source : Text) (start stop : Nat) : Segment :=
  ⟨start, if start = 0 then none else source[start - 1]?, source.between start stop⟩

structure Found where
  start : Nat
  text : Text
  hit : Hit

namespace Pattern

/-- Finds a pattern from left to right. The search goes on after the characters of a hit, of which
`skip` are left, and after an empty hit one character further. -/
def findFrom (p : Pattern) (skip : Nat) (before : Option Char) (start : Nat) : Text → List Found
  | [] =>
    match skip, p.recognise before [] with
    | 0, some hit => [⟨start, [], hit⟩]
    | _, _ => []
  | c :: cs =>
    match skip with
    | skip + 1 => findFrom p skip (some c) (start + 1) cs
    | 0 =>
      match p.recognise before (c :: cs) with
      | some hit => ⟨start, c :: cs, hit⟩ :: findFrom p (hit.size - 1) (some c) (start + 1) cs
      | none => findFrom p 0 (some c) (start + 1) cs

def find (p : Pattern) (s : Segment) : List Found := p.findFrom 0 s.before s.start s.text

end Pattern

end PioSyntax

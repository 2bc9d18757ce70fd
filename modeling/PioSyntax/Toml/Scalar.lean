import PioSyntax.Text.Digit
import PioSyntax.Toml.Value

namespace PioSyntax.Toml

open Text

inductive Error where
  | malformed
  | manyDigits (count : Nat)
deriving DecidableEq

def isControl (c : Char) : Bool := (c.toNat < 0x20 && c != '\t') || c.toNat = 0x7F

def isLineControl (c : Char) : Bool := isControl c && c != '\n'

def isSpace (c : Char) : Bool := isBlank c || c == '\n'

def isOctal (c : Char) : Bool := '0' ≤ c && c ≤ '7'

def valueOf (base : Nat) (digits : Text) : Nat :=
  digits.foldl (fun n c => base * n + (hexDigit? c).getD 0) 0

def literal (text : Text) : Except Error (Text × Text) :=
  let content := text.takeWhile (· != '\x27')
  match text.drop content.length with
  | _ :: rest => if content.any isControl then .error .malformed else .ok (content, rest)
  | [] => .error .malformed

def cutTriple? : Text → Option (Text × Text)
  | [] => none
  | '\x27' :: '\x27' :: '\x27' :: rest => some ([], rest)
  | c :: cs => (cutTriple? cs).map fun (before, rest) => (c :: before, rest)

def afterBreak : Text → Text
  | '\n' :: cs => cs
  | cs => cs

/-- One or two quotes right after the closing ones belong to the text. -/
def moreQuotes (quote : Char) (content : Text) : Text → Text × Text
  | a :: b :: rest =>
    if a = quote then
      if b = quote then (content ++ [quote, quote], rest) else (content ++ [quote], b :: rest)
    else (content, a :: b :: rest)
  | [a] => if a = quote then (content ++ [quote], []) else (content, [a])
  | [] => (content, [])

def longLiteral (text : Text) : Except Error (Text × Text) :=
  match cutTriple? (afterBreak text) with
  | some (content, rest) =>
    if content.any isLineControl then .error .malformed
    else .ok (moreQuotes '\x27' content rest)
  | none => .error .malformed

def codePoint (size : Nat) (text : Text) : Except Error (Char × Text) :=
  let digits := text.take size
  let n := valueOf 16 digits
  if digits.length = size && digits.all isHexDigit && n.isValidChar then
    .ok (Char.ofNat n, text.drop size)
  else .error .malformed

/-- What a backslash at the end of a line stands for: nothing, along with all space that follows.
Only blanks may come between the two. -/
def lineContinuation (text : Text) : Except Error (Text × Text) :=
  match text.dropWhile isBlank with
  | [] => .ok ([], [])
  | '\n' :: rest => .ok ([], rest.dropWhile isSpace)
  | _ => .error .malformed

def escapeSequence (long : Bool) : Text → Except Error (Text × Text)
  | [] => .error .malformed
  | c :: cs =>
    let single (c : Char) : Except Error (Text × Text) := .ok ([c], cs)
    if long && isSpace c then lineContinuation (c :: cs)
    else if c = 'u' then (codePoint 4 cs).map fun (d, rest) => ([d], rest)
    else if c = 'U' then (codePoint 8 cs).map fun (d, rest) => ([d], rest)
    else if c = 'b' then single '\x08'
    else if c = 't' then single '\t'
    else if c = 'n' then single '\n'
    else if c = 'f' then single '\x0c'
    else if c = 'r' then single '\r'
    else if c = '"' || c = '\\' then single c
    else .error .malformed

/-- A text between double quotes, after the opening ones. Each round takes a character or an escape
of what is left, so that there are never more rounds than characters. -/
def basicFor (long : Bool) : (rounds : Nat) → Text → Except Error (Text × Text)
  | 0, _ => .error .malformed
  | _ + 1, [] => .error .malformed
  | rounds + 1, c :: cs =>
    if c = '\\' then do
      let (content, rest) ← escapeSequence long cs
      let (more, rest) ← basicFor long rounds rest
      return (content ++ more, rest)
    else if c = '"' && (!long || (after? "\"\"" cs).isSome) then
      .ok ([], if long then cs.drop 2 else cs)
    else if if long then isLineControl c else isControl c then .error .malformed
    else do
      let (more, rest) ← basicFor long rounds cs
      return (c :: more, rest)

def basic (text : Text) : Except Error (Text × Text) := basicFor false text.length text

def longBasic (text : Text) : Except Error (Text × Text) := do
  let (content, rest) ← basicFor true text.length (afterBreak text)
  return moreQuotes '"' content rest

def moreDigits (isDigit : Char → Bool) : Text → Text × Text
  | [] => ([], [])
  | c :: cs =>
    if isDigit c then
      let (digits, rest) := moreDigits isDigit cs
      (c :: digits, rest)
    else
      match c, cs with
      | '_', d :: rest =>
        if isDigit d then
          let (digits, rest) := moreDigits isDigit rest
          (d :: digits, rest)
        else ([], c :: cs)
      | _, _ => ([], c :: cs)

def digits? (isDigit : Char → Bool) : Text → Option (Text × Text)
  | [] => none
  | c :: cs =>
    if isDigit c then
      let (digits, rest) := moreDigits isDigit cs
      some (c :: digits, rest)
    else none

def basedInteger? : Text → Option (Int × Text)
  | '0' :: 'x' :: cs => (digits? isHexDigit cs).map fun (ds, rest) => (valueOf 16 ds, rest)
  | '0' :: 'b' :: cs => (digits? isBinaryDigit cs).map fun (ds, rest) => (valueOf 2 ds, rest)
  | '0' :: 'o' :: cs => (digits? isOctal cs).map fun (ds, rest) => (valueOf 8 ds, rest)
  | _ => none

def sign : Text → Bool × Text
  | '-' :: cs => (true, cs)
  | '+' :: cs => (false, cs)
  | cs => (false, cs)

def integerDigits? : Text → Option (Text × Text)
  | '0' :: cs => some (['0'], cs)
  | cs => digits? Char.isDigit cs

def fraction : Text → Text × Text
  | '.' :: cs => (digits? Char.isDigit cs).getD ([], '.' :: cs)
  | cs => ([], cs)

def power? : Text → Option (Int × Text)
  | [] => none
  | c :: cs =>
    if c = 'e' || c = 'E' then
      let (negative, rest) := sign cs
      (digits? Char.isDigit rest).map fun (ds, rest) =>
        (if negative then -(valueOf 10 ds : Int) else valueOf 10 ds, rest)
    else none

def decimal? (text : Text) : Option (Except Error (Value × Text)) :=
  let (negative, unsigned) := sign text
  (integerDigits? unsigned).map fun (whole, rest) =>
    let (part, rest) := fraction rest
    match part, power? rest with
    | [], none =>
      if Value.greatestLength < whole.length then .error (.manyDigits whole.length)
      else .ok (.integer (if negative then -(valueOf 10 whole : Int) else valueOf 10 whole), rest)
    | _, scaled =>
      let (exponent, rest) := scaled.getD (0, rest)
      .ok (.float (.ofDecimal negative (valueOf 10 (whole ++ part)) (exponent - part.length)), rest)

def field? (size low high : Nat) (text : Text) : Option (Nat × Text) :=
  let digits := text.take size
  let n := valueOf 10 digits
  if digits.length = size && digits.all Char.isDigit && low ≤ n && n ≤ high then
    some (n, text.drop size)
  else none

def microseconds : Text → Nat × Text
  | '.' :: cs =>
    match cs.takeWhile Char.isDigit with
    | [] => (0, '.' :: cs)
    | ds => (valueOf 10 ((ds ++ List.replicate 6 '0').take 6), cs.drop ds.length)
  | cs => (0, cs)

def time? (text : Text) : Option (Time × Text) := do
  let (hour, rest) ← field? 2 0 23 text
  let rest ← after? ":" rest
  let (minute, rest) ← field? 2 0 59 rest
  let rest ← after? ":" rest
  let (second, rest) ← field? 2 0 59 rest
  let (microsecond, rest) := microseconds rest
  return (⟨hour, minute, second, microsecond⟩, rest)

def offset? : Text → Option (Int × Text)
  | [] => none
  | c :: cs =>
    if c = 'Z' || c = 'z' then some (0, cs)
    else if c = '+' || c = '-' then do
      let (hours, rest) ← field? 2 0 23 cs
      let rest ← after? ":" rest
      let (minutes, rest) ← field? 2 0 59 rest
      let total : Int := 60 * hours + minutes
      return (if c = '-' then -total else total, rest)
    else none

def isLeap (year : Nat) : Bool := year % 4 = 0 && (year % 100 ≠ 0 || year % 400 = 0)

def daysOf (year month : Nat) : Nat :=
  if month = 2 then (if isLeap year then 29 else 28)
  else if month = 4 || month = 6 || month = 9 || month = 11 then 30
  else 31

def date? (text : Text) : Option (Date × Text) := do
  let (year, rest) ← field? 4 0 9999 text
  let rest ← after? "-" rest
  let (month, rest) ← field? 2 1 12 rest
  let rest ← after? "-" rest
  let (day, rest) ← field? 2 1 31 rest
  return (⟨year, month, day⟩, rest)

def dayTime? : Text → Option (Time × Text)
  | c :: cs => if c = 'T' || c = 't' || c = ' ' then time? cs else none
  | [] => none

def dateTime? (text : Text) : Option (Except Error (Value × Text)) :=
  (date? text).map fun (d, rest) =>
    if d.year = 0 || daysOf d.year d.month < d.day then .error .malformed
    else
      match dayTime? rest with
      | none => .ok (.date d, rest)
      | some (t, rest) =>
        match offset? rest with
        | none => .ok (.dateTime d t none, rest)
        | some (minutes, rest) => .ok (.dateTime d t (some minutes), rest)

def special? (text : Text) : Option (Value × Text) :=
  let (negative, rest) := sign text
  match after? "inf" rest, after? "nan" rest with
  | some rest, _ => some (.float (.infinite negative), rest)
  | none, some rest => some (.float .nan, rest)
  | none, none => none

def scalar (text : Text) : Except Error (Value × Text) :=
  match after? "true" text, after? "false" text with
  | some rest, _ => .ok (.boolean true, rest)
  | none, some rest => .ok (.boolean false, rest)
  | none, none =>
    match dateTime? text with
    | some reading => reading
    | none =>
      match time? text, basedInteger? text with
      | some (t, rest), _ => .ok (.time t, rest)
      | none, some (i, rest) => .ok (.integer i, rest)
      | none, none =>
        match decimal? text, special? text with
        | some reading, _ => reading
        | none, some (v, rest) => .ok (v, rest)
        | none, none => .error .malformed

end PioSyntax.Toml

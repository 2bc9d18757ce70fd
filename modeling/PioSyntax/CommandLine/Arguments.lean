import PioSyntax.CommandLine.Usage
import PioSyntax.Text.Digit

namespace PioSyntax.CommandLine

open Text

/-- What the user asks for. An input is always there. The format and the styles may be left blank
where they are asked for; a blank output or configuration is the same as none. -/
structure Arguments where
  input : Text
  output : Option Text
  format : Option (Option OutputFormat)
  standalone : Bool
  config : Option Text
  styles : List (Option Text)
  debug : Bool
deriving DecidableEq

inductive Refusal where
  | help
  | usage (e : UsageError)
deriving DecidableEq

structure Use where
  switch : Switch
  spelling : Text
  value : Option Text
deriving DecidableEq

def Use.isShort (u : Use) : Bool := u.spelling.length = 2

inductive Item where
  | word (text : Text)
  | rest
  | use (u : Use)
  | unknown (text : Text)
deriving DecidableEq

/-- A minus and a number, whole or with a point. A line feed may follow. -/
def looksNegative : Text → Bool
  | '-' :: text =>
    let number := if text.getLast? = some '\n' then text.dropLast else text
    let isDigit (c : Char) : Bool := (digit? c).isSome
    let fraction := number.dropWhile isDigit
    if fraction.isEmpty then !number.isEmpty
    else fraction.head? == some '.' && !fraction.tail.isEmpty && fraction.tail.all isDigit
  | _ => false

/-- The switches that a word may be short for. A long switch may be cut short, and a value may
follow it after an equals sign. The value of a short switch may follow it directly. -/
def readings (word : Text) : List Use :=
  if (after? "--" word).isSome then
    let (start, value) : Text × Option Text :=
      match cut? '=' word with
      | some (start, value) => (start, some value)
      | none => (word, none)
    (Switch.spellings.filter fun p => start.isPrefixOf p.1).map fun p => ⟨p.2, p.1, value⟩
  else
    (Switch.spellings.filter fun p => p.1 = word.take 2).map fun p =>
      ⟨p.2, p.1, some (word.drop 2)⟩

def exactly? (word : Text) : Option Switch := Switch.spellings.lookup word

def itemOf (word : Text) : Except UsageError Item :=
  if word = ['-'] || word.head? ≠ some '-' then .ok (.word word)
  else
    match exactly? word with
    | some s => .ok (.use ⟨s, word, none⟩)
    | none =>
      let marked := (cut? '=' word).bind fun (start, value) =>
        (exactly? start).map fun s => Use.mk s start (some value)
      match marked with
      | some u => .ok (.use u)
      | none =>
        match readings word with
        | [u] => .ok (.use u)
        | [] =>
          if looksNegative word || word.contains ' ' then .ok (.word word) else .ok (.unknown word)
        | several => .error (.ambiguous word (several.map (·.spelling)))

def itemsOf : List Text → Except UsageError (List Item)
  | [] => .ok []
  | word :: words =>
    if word = ['-', '-'] then .ok (.rest :: words.map .word)
    else do
      let item ← itemOf word
      let items ← itemsOf words
      return item :: items

structure Draft where
  input : Option Text
  arguments : Arguments
  extras : List Text

namespace Draft

def empty : Draft := ⟨none, ⟨[], none, none, false, none, [], false⟩, []⟩

def addExtra (d : Draft) (word : Text) : Draft := { d with extras := d.extras ++ [word] }

def setInput (d : Draft) (word : Text) : Draft := { d with input := some word }

def turnOn (d : Draft) : Switch → Except Refusal Draft
  | .help => .error .help
  | .standalone => .ok { d with arguments := { d.arguments with standalone := true } }
  | .debug => .ok { d with arguments := { d.arguments with debug := true } }
  | s => .error (.usage (.missingValue s))

/-- The value that a word is for a switch. Two minus signs are the mark after which all words are
plain, and attached to a switch they leave it blank. -/
def valueOf (word : Text) : Option Text := if word = ['-', '-'] then none else some word

def setValue (d : Draft) (s : Switch) (word : Text) : Except Refusal Draft :=
  let a := d.arguments
  match s, valueOf word with
  | .output, value => .ok { d with arguments := { a with output := value } }
  | .config, value => .ok { d with arguments := { a with config := value } }
  | .style, value => .ok { d with arguments := { a with styles := a.styles ++ [value] } }
  | .format, none => .ok { d with arguments := { a with format := some none } }
  | .format, some name =>
    match OutputFormat.ofName? name with
    | some f => .ok { d with arguments := { a with format := some (some f) } }
    | none => .error (.usage (.unknownFormat name))
  | s, _ => .error (.usage (.unwantedValue s word))

/-- Reads what is attached to the letter that asks for help: further switches of one letter. The
help is given unless one of them is unknown or lacks its value, and `next` says whether a plain word
follows. -/
def helpCluster (next : Bool) : Text → Refusal
  | [] => .usage (.unwantedValue .help [])
  | c :: cs =>
    match exactly? ['-', c], cs with
    | none, cs => .usage (.unwantedValue .help (c :: cs))
    | some .help, [] => .help
    | some .help, cs => helpCluster next cs
    | some s, [] => if next then .help else .usage (.missingValue s)
    | some _, _ => .help

end Draft

def isPlain : Item → Bool
  | .word _ => true
  | _ => false

def collect (d : Draft) : List Item → Except Refusal Draft
  | [] => .ok d
  | .word text :: items =>
    match d.input, items with
    | none, .rest :: items => collect (d.setInput text) items
    | none, items => collect (d.setInput text) items
    | some _, items => collect (d.addExtra text) items
  | .rest :: items =>
    match d.input, items with
    | none, .word text :: items => collect (d.setInput text) items
    | _, items => collect (d.addExtra ['-', '-']) items
  | .unknown text :: items => collect (d.addExtra text) items
  | .use u :: items =>
    match u.value with
    | some value =>
      if u.switch = .help && u.isShort then
        .error (Draft.helpCluster (items.head?.any isPlain) value)
      else
        match d.setValue u.switch value with
        | .ok d => collect d items
        | .error e => .error e
    | none =>
      if u.switch.takesValue then
        match items with
        | .word value :: items =>
          match d.setValue u.switch value with
          | .ok d => collect d items
          | .error e => .error e
        | _ => .error (.usage (.missingValue u.switch))
      else
        match d.turnOn u.switch with
        | .ok d => collect d items
        | .error e => .error e

def Draft.finish (d : Draft) : Except Refusal Arguments :=
  match d.input, d.extras with
  | none, _ => .error (.usage .missingInput)
  | some input, [] => .ok { d.arguments with input := input }
  | some _, extras => .error (.usage (.unrecognized extras))

def Arguments.ofWords (words : List Text) : Except Refusal Arguments :=
  match itemsOf words with
  | .error e => .error (.usage e)
  | .ok items =>
    match collect .empty items with
    | .ok d => d.finish
    | .error e => .error e

end PioSyntax.CommandLine

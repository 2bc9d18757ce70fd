import PioSyntax.Category
import PioSyntax.ConfigError
import PioSyntax.Style

namespace PioSyntax

open Text

namespace Category

/-- Upper case, where that is in ASCII. Any other letter stays as it is, and is in the name of no
category. -/
def upper (c : Char) : Text :=
  if c = 'ß' then "SS"
  else if c = 'ı' then "I"
  else if c = 'ſ' then "S"
  else if c = 'ﬀ' then "FF"
  else if c = 'ﬁ' then "FI"
  else if c = 'ﬂ' then "FL"
  else if c = 'ﬃ' then "FFI"
  else if c = 'ﬄ' then "FFL"
  else if c = 'ﬅ' || c = 'ﬆ' then "ST"
  else [c.toUpper]

def lookupKey (name : Text) : Text :=
  ((trim name).flatMap upper).map fun c => if c = '-' then '_' else c

def ofUserName (name : Text) : Except ConfigProblem Category :=
  match ofName? (lookupKey name) with
  | some c => .ok c
  | none => .error (.unknownCategory name)

end Category

namespace Style

def isColor : Text → Bool
  | '#' :: digits => digits.length == 6 && digits.all isHexDigit
  | _ => false

/-- Lower case, where that is in ASCII, at least in part: of the dotted capital I and of the Kelvin
sign. Any other letter stays as it is, and is in no word of a specification. -/
def lower (c : Char) : Text :=
  if c = '\u0130' then ['i', '\u0307']
  else if c = '\u212a' then ['k']
  else [c.toLower]

def addWord? (s : Style) (word : Text) : Option Style :=
  let lowered := word.flatMap lower
  if lowered = ("bold" : Text) then some { s with bold := true }
  else if lowered = ("italic" : Text) then some { s with italic := true }
  else if lowered = ("none" : Text) then some { s with color := none }
  else if isColor word then some { s with color := some lowered }
  else none

def addWord (spec : Text) (s : Style) (word : Text) : Except ConfigProblem Style :=
  match s.addWord? word with
  | some s => .ok s
  | none => .error (.unknownStyleWord word spec)

/-- Reads a specification such as `#ff0000 bold italic`: words in any order, where `none` takes the
color back. -/
def ofSpec (spec : Text) : Except ConfigProblem Style := (words spec).foldlM (addWord spec) plain

end Style

end PioSyntax

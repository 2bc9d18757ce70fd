import PioSyntax.Toml.Scalar

namespace PioSyntax.Toml

open Text

abbrev Key := List Text

def isBareKey (c : Char) : Bool := c.isAlphanum || c == '-' || c == '_'

def keyPart : Text → Except Error (Text × Text)
  | [] => .error .malformed
  | '\x27' :: cs => literal cs
  | '"' :: cs => basic cs
  | text =>
    let name := text.takeWhile isBareKey
    if name = [] then .error .malformed else .ok (name, text.drop name.length)

def keyFor : (rounds : Nat) → Text → Except Error (Key × Text)
  | 0, _ => .error .malformed
  | rounds + 1, text => do
    let (part, rest) ← keyPart text
    match rest.dropWhile isBlank with
    | '.' :: rest =>
      let (parts, rest) ← keyFor rounds (rest.dropWhile isBlank)
      return (part :: parts, rest)
    | rest => return ([part], rest)

def key (text : Text) : Except Error (Key × Text) := keyFor (text.length + 1) text

def skipFiller (inComment : Bool) : Text → Except Error Text
  | [] => .ok []
  | c :: cs =>
    if inComment then
      if c = '\n' then skipFiller false cs
      else if isControl c then .error .malformed
      else skipFiller true cs
    else if isSpace c then skipFiller false cs
    else if c = '#' then skipFiller true cs
    else .ok (c :: cs)

/-- Applies a change to the table behind a key, which is created if need be. Behind an array of
tables stands its last one, unless arrays are closed. -/
def changeAt (openArrays : Bool) (change : Table → Option Table) : Key → Table → Option Table
  | [], t => change t
  | k :: key, t =>
    match t.get? k with
    | none => (changeAt openArrays change key []).map fun inner => Table.put k (.table inner) t
    | some (.table inner) =>
      (changeAt openArrays change key inner).map fun inner => Table.put k (.table inner) t
    | some (.array items) =>
      match openArrays, items.getLast? with
      | true, some (.table inner) =>
        (changeAt openArrays change key inner).map fun inner =>
          Table.put k (.array (items.dropLast ++ [.table inner])) t
      | _, _ => none
    | some _ => none

def addNew (k : Text) (v : Value) (t : Table) : Option Table :=
  if (t.get? k).isSome then none else some (t.put k v)

def addAt (openArrays : Bool) (parents : Key) (k : Text) (v : Value) (t : Table) : Option Table :=
  changeAt openArrays (addNew k v) parents t

def Value.isCollection : Value → Bool
  | array _ | table _ => true
  | _ => false

def isBelow (closed : List Key) (key : Key) : Bool := closed.any (·.isPrefixOf key)

/-- An entry of an inline table. The values before it that are collections are closed to it. -/
def addInline (closed : List Key) (key : Key) (v : Value) (t : Table) : Except Error Table :=
  if isBelow closed key then .error .malformed
  else
    match addAt false key.dropLast (key.getLast?.getD []) v t with
    | some t => .ok t
    | none => .error .malformed

mutual

/-- Reads a value. Each round takes at least one character, so that there are never more rounds than
characters. -/
def valueFor : (rounds : Nat) → Text → Except Error (Value × Text)
  | 0, _ => .error .malformed
  | rounds + 1, text =>
    match text with
    | '"' :: '"' :: '"' :: cs => (longBasic cs).map fun (t, rest) => (.text t, rest)
    | '"' :: cs => (basic cs).map fun (t, rest) => (.text t, rest)
    | '\x27' :: '\x27' :: '\x27' :: cs => (longLiteral cs).map fun (t, rest) => (.text t, rest)
    | '\x27' :: cs => (literal cs).map fun (t, rest) => (.text t, rest)
    | '[' :: cs => do
      let rest ← skipFiller false cs
      match rest with
      | ']' :: rest => return (.array [], rest)
      | rest =>
        let (items, rest) ← itemsFor rounds rest
        return (.array items, rest)
    | '{' :: cs =>
      match cs.dropWhile isBlank with
      | '}' :: rest => .ok (.table [], rest)
      | rest => (entriesFor rounds [] [] rest).map fun (t, rest) => (.table t, rest)
    | text => scalar text

def itemsFor : (rounds : Nat) → Text → Except Error (List Value × Text)
  | 0, _ => .error .malformed
  | rounds + 1, text => do
    let (v, rest) ← valueFor rounds text
    let rest ← skipFiller false rest
    match rest with
    | ']' :: rest => return ([v], rest)
    | ',' :: rest =>
      let rest ← skipFiller false rest
      match rest with
      | ']' :: rest => return ([v], rest)
      | rest =>
        let (items, rest) ← itemsFor rounds rest
        return (v :: items, rest)
    | _ => .error .malformed

def entriesFor : (rounds : Nat) → (closed : List Key) → Table → Text → Except Error (Table × Text)
  | 0, _, _, _ => .error .malformed
  | rounds + 1, closed, t, text => do
    let (k, rest) ← key text
    match rest with
    | '=' :: rest =>
      let (v, rest) ← valueFor rounds (rest.dropWhile isBlank)
      let t ← addInline closed k v t
      match rest.dropWhile isBlank with
      | '}' :: rest => return (t, rest)
      | ',' :: rest =>
        let closed := if v.isCollection then k :: closed else closed
        entriesFor rounds closed t (rest.dropWhile isBlank)
      | _ => .error .malformed
    | _ => .error .malformed

end

def value (text : Text) : Except Error (Value × Text) := valueFor (2 * text.length + 2) text

end PioSyntax.Toml

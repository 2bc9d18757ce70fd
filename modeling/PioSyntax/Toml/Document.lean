import PioSyntax.Toml.Reader

namespace PioSyntax.Toml

open Text

/-- A file up to some statement. Tables that were declared are `declared`, and may not be declared
again; those that dotted keys made become so at the next header. Values that are collections are
`closed`. Entries go below the key of the last header. -/
structure Document where
  root : Table
  declared : List Key
  pending : List Key
  closed : List Key
  header : Key

namespace Document

def empty : Document := ⟨[], [], [], [], []⟩

def settle (d : Document) : Document :=
  { d with declared := d.pending ++ d.declared, pending := [] }

def declareTable (d : Document) (key : Key) : Option Document :=
  if d.declared.contains key || isBelow d.closed key then none
  else
    (changeAt true some key d.root).map fun root =>
      { d with root := root, declared := key :: d.declared, header := key }

def appendTable (k : Text) (t : Table) : Option Table :=
  match t.get? k with
  | none => some (t.put k (.array [.table []]))
  | some (.array items) => some (t.put k (.array (items ++ [.table []])))
  | some _ => none

/-- Declares a further table of an array and goes there. What was declared below the one before it
is free again. -/
def declareItem (d : Document) (key : Key) : Option Document :=
  if isBelow d.closed key then none
  else
    let free (keys : List Key) := keys.filter fun k => !key.isPrefixOf k
    (changeAt true (appendTable (key.getLast?.getD [])) key.dropLast d.root).map fun root =>
      { d with
        root := root, declared := key :: free d.declared, closed := free d.closed, header := key }

def inner (header key : Key) : List Key :=
  (List.range (key.length - 1)).map fun n => header ++ key.take (n + 1)

def addEntry (d : Document) (key : Key) (v : Value) : Option Document :=
  let through := inner d.header key
  let parents := d.header ++ key.dropLast
  if through.any d.declared.contains || isBelow d.closed parents then none
  else
    (addAt true parents (key.getLast?.getD []) v d.root).map fun root =>
      { d with
        root := root
        pending := through ++ d.pending
        closed := if v.isCollection then (d.header ++ key) :: d.closed else d.closed }

def orMalformed {α : Type} : Option α → Except Error α
  | some a => .ok a
  | none => .error .malformed

def statement (d : Document) (text : Text) : Except Error (Document × Text) :=
  match text with
  | '[' :: '[' :: cs => do
    let (k, rest) ← key (cs.dropWhile isBlank)
    let d ← orMalformed (d.settle.declareItem k)
    let rest ← orMalformed (after? "]]" rest)
    return (d, rest)
  | '[' :: cs => do
    let (k, rest) ← key (cs.dropWhile isBlank)
    let d ← orMalformed (d.settle.declareTable k)
    let rest ← orMalformed (after? "]" rest)
    return (d, rest)
  | '\n' :: _ | '#' :: _ | [] => .ok (d, text)
  | text => do
    let (k, rest) ← key text
    let rest ← orMalformed (after? "=" rest)
    let (v, rest) ← value (rest.dropWhile isBlank)
    let d ← orMalformed (d.addEntry k v)
    return (d, rest)

def lineEnd (text : Text) : Except Error Text :=
  match text.dropWhile isBlank with
  | '#' :: cs =>
    let comment := cs.takeWhile (· != '\n')
    if comment.any isControl then .error .malformed else .ok (cs.drop comment.length)
  | rest => .ok rest

def readFor : (rounds : Nat) → Document → Text → Except Error Document
  | 0, _, _ => .error .malformed
  | rounds + 1, d, text => do
    let (d, rest) ← statement d (text.dropWhile isBlank)
    let rest ← lineEnd rest
    match rest with
    | [] => return d
    | '\n' :: rest => readFor rounds d rest
    | _ => .error .malformed

end Document

def unixBreaks : Text → Text
  | '\r' :: '\n' :: cs => '\n' :: unixBreaks cs
  | c :: cs => c :: unixBreaks cs
  | [] => []

def read (text : Text) : Except Error Table :=
  (Document.readFor (text.length + 1) .empty (unixBreaks text)).map (·.root)

end PioSyntax.Toml

import PioSyntax.Number.Shortest
import PioSyntax.Text.Quoted

namespace PioSyntax.Toml

open Text

structure Date where
  year : Nat
  month : Nat
  day : Nat
deriving DecidableEq

structure Time where
  hour : Nat
  minute : Nat
  second : Nat
  microsecond : Nat
deriving DecidableEq

/-- A table keeps the order in which its keys were first written. -/
inductive Value where
  | text (t : Text)
  | integer (i : Int)
  | float (d : Double)
  | boolean (b : Bool)
  | date (d : Date)
  | time (t : Time)
  | dateTime (d : Date) (t : Time) (offset : Option Int)
  | array (items : List Value)
  | table (entries : List (Text × Value))

abbrev Table := List (Text × Value)

namespace Table

def get? (t : Table) (key : Text) : Option Value := t.lookup key

def put (key : Text) (v : Value) : Table → Table
  | [] => [(key, v)]
  | e :: t => if e.1 = key then (key, v) :: t else e :: put key v t

end Table

def Date.toText (d : Date) : Text :=
  let year := ofNat d.year
  List.replicate (4 - year.length) '0' ++ year ++ "-" ++ ofNat2 d.month ++ "-" ++ ofNat2 d.day

def Time.toText (t : Time) : Text :=
  let fraction := ofNat t.microsecond
  ofNat2 t.hour ++ ":" ++ ofNat2 t.minute ++ ":" ++ ofNat2 t.second ++
    if t.microsecond = 0 then [] else '.' :: List.replicate (6 - fraction.length) '0' ++ fraction

def offsetText (minutes : Int) : Text :=
  (if minutes < 0 then "-" else "+") ++ ofNat2 (minutes.natAbs / 60) ++ ":" ++
    ofNat2 (minutes.natAbs % 60)

def dateTimeText (d : Date) (t : Time) (offset : Option Int) : Text :=
  d.toText ++ " " ++ t.toText ++ offset.elim [] offsetText

def call (function : Text) (arguments : List Text) : Text :=
  function ++ "(" ++ join ", " arguments ++ ")"

def Date.arguments (d : Date) : List Text := [d.year, d.month, d.day].map ofNat

def Time.arguments (t : Time) : List Text :=
  (if t.microsecond ≠ 0 then [t.hour, t.minute, t.second, t.microsecond]
    else if t.second ≠ 0 then [t.hour, t.minute, t.second]
    else [t.hour, t.minute]).map ofNat

/-- An offset as days and seconds, of which the seconds are not negative. -/
def offsetArguments (minutes : Int) : List Text :=
  let days : List Text :=
    if minutes < 0 then [("days=" : Text) ++ ofInt (minutes * 60 / 86400)] else []
  days ++ [("seconds=" : Text) ++ ofInt (minutes * 60 % 86400)]

def zone (minutes : Int) : Text :=
  if minutes = 0 then "datetime.timezone.utc"
  else call "datetime.timezone" [call "datetime.timedelta" (offsetArguments minutes)]

def zoneArgument (minutes : Int) : Text := "tzinfo=" ++ zone minutes

namespace Value

mutual

def nestedText : Value → Text
  | text t => quoted t
  | integer i => ofInt i
  | float d => d.toText
  | boolean b => if b then "True" else "False"
  | date d => call "datetime.date" d.arguments
  | time t => call "datetime.time" t.arguments
  | dateTime d t offset =>
    call "datetime.datetime" (d.arguments ++ t.arguments ++ (offset.map zoneArgument).toList)
  | array items => "[" ++ join ", " (itemTexts items) ++ "]"
  | table entries => "\x7b" ++ join ", " (entryTexts entries) ++ "\x7d"

def itemTexts : List Value → List Text
  | [] => []
  | v :: items => nestedText v :: itemTexts items

def entryTexts : List (Text × Value) → List Text
  | [] => []
  | (key, v) :: entries => (quoted key ++ ": " ++ nestedText v) :: entryTexts entries

end

def greatestLength : Nat := 4300

mutual

def isLong : Value → Bool
  | integer i => greatestLength < (ofNat i.natAbs).length
  | array items => anyLong items
  | table entries => anyEntryLong entries
  | _ => false

def anyLong : List Value → Bool
  | [] => false
  | v :: items => isLong v || anyLong items

def anyEntryLong : List (Text × Value) → Bool
  | [] => false
  | (_, v) :: entries => isLong v || anyEntryLong entries

end

def toText : Value → Text
  | text t => t
  | date d => d.toText
  | time t => t.toText
  | dateTime d t offset => dateTimeText d t offset
  | v => v.nestedText

end Value

end PioSyntax.Toml

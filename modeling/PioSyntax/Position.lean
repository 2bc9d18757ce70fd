import PioSyntax.Text

namespace PioSyntax

structure Position where
  line : Nat
  column : Int
  offset : Int
deriving DecidableEq

structure LineIndex where
  starts : List Nat

namespace LineIndex

/-- The line starts after the one of the current line, for a rest of the source at `offset`. -/
def startsFrom (offset : Nat) : Text → List Nat
  | [] => []
  | c :: cs =>
    if c = '\n' then (offset + 1) :: startsFrom (offset + 1) cs else startsFrom (offset + 1) cs

def ofText (source : Text) : LineIndex := ⟨0 :: startsFrom 0 source⟩

/-- The position of an offset: on the last line that starts at or before it. A negative offset is on
no line; it is given as line zero, with its column counted from the last line. -/
def position (index : LineIndex) (offset : Int) : Position :=
  let reached := index.starts.takeWhile fun start : Nat => (start : Int) ≤ offset
  let origin := (reached.getLast?.or index.starts.getLast?).getD 0
  ⟨reached.length, offset - origin + 1, offset⟩

end LineIndex

end PioSyntax

import PioSyntax.Category

namespace PioSyntax

structure Span where
  start : Nat
  stop : Nat
deriving DecidableEq

namespace Span

def slice (s : Span) (text : Text) : Text := text.between s.start s.stop

def shift (s : Span) (n : Nat) : Span := ⟨n + s.start, n + s.stop⟩

def IsEmpty (s : Span) : Prop := s.stop ≤ s.start

instance (s : Span) : Decidable s.IsEmpty := inferInstanceAs (Decidable (s.stop ≤ s.start))

end Span

structure Token where
  category : Category
  span : Span
  text : Text
deriving DecidableEq

/-- A block in another language. The head and the tail are the markers of its first and last line,
the body is all that stands between those lines. A block that is never closed has no tail, and its
body runs to the end of the source. -/
structure ForeignBlock where
  language : Text
  head : Span
  body : Span
  tail : Option Span
deriving DecidableEq

def ForeignBlock.terminated (b : ForeignBlock) : Bool := b.tail.isSome

end PioSyntax

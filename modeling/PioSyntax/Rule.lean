import PioSyntax.Pattern

namespace PioSyntax

/-- Reports what a pattern takes (group 0) or marks (group 1) under a category. -/
structure Rule where
  category : Category
  pattern : Pattern
  group : Int
deriving DecidableEq

namespace Rule

def hasGroup (r : Rule) : Bool := r.group == 0 || (r.group == 1 && r.pattern.marksPart)

def groupOf (r : Rule) (hit : Hit) : Option Span :=
  if r.group = 0 then some ⟨0, hit.size⟩ else if r.group = 1 then hit.part else none

def token? (r : Rule) (found : Found) : Option Token :=
  (r.groupOf found.hit).bind fun s =>
    if s.IsEmpty then none else some ⟨r.category, s.shift found.start, s.slice found.text⟩

def candidates (r : Rule) (s : Segment) : List Token := (r.pattern.find s).filterMap r.token?

end Rule

namespace Vocabulary

def directives : List Text :=
  [ "program", "define", "origin", "side_set", "wrap_target", "wrap", "word", "lang_opt",
    "pio_version", "clock_div", "fifo", "mov_status", "in", "out", "set" ]

def instructions : List Text :=
  ["jmp", "wait", "in", "out", "push", "pull", "mov", "irq", "set", "nop"]

/-- Conditions of a jump, but for `!x` and `!y`, which read as an operator before a register. -/
def jmpConditions : List Text := ["x--", "y--", "x!=y", "!osre"]

def registers : List Text :=
  [ "pins", "pindirs", "pin", "gpio", "jmppin", "x", "y", "null", "isr", "osr", "status", "pc",
    "exec", "rxfifo", "txfifo" ]

def modifiers : List Text :=
  [ "block", "noblock", "iffull", "ifempty", "rel", "side", "opt", "public", "nowait", "clear",
    "prev", "next" ]

end Vocabulary

/-- The rules in order of priority: what an earlier one claims stays with it. -/
def defaultRules : List Rule :=
  [ ⟨.comment, .comment, 0⟩,
    ⟨.directive, .directive Vocabulary.directives, 1⟩,
    ⟨.label, .label, 1⟩,
    ⟨.arrayIndex, .arrayIndex, 1⟩,
    ⟨.jmpCondition, .keyword Vocabulary.jmpConditions, 0⟩,
    ⟨.instruction, .keyword Vocabulary.instructions, 0⟩,
    ⟨.register, .keyword Vocabulary.registers, 0⟩,
    ⟨.modifier, .keyword Vocabulary.modifiers, 0⟩,
    ⟨.movOperator, .operator, 0⟩,
    ⟨.numericLiteral, .number, 0⟩ ]

def defaultRule? (category : Category) : Option Rule :=
  defaultRules.find? (·.category = category)

end PioSyntax

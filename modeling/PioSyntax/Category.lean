import PioSyntax.Text

namespace PioSyntax

inductive Category where
  | directive
  | label
  | instruction
  | jmpCondition
  | register
  | modifier
  | movOperator
  | numericLiteral
  | arrayIndex
  | foreignBlockDelimiter
  | foreignBlock
  | comment
  | plain
deriving DecidableEq

namespace Category

def all : List Category :=
  [ .directive, .label, .instruction, .jmpCondition, .register, .modifier, .movOperator,
    .numericLiteral, .arrayIndex, .foreignBlockDelimiter, .foreignBlock, .comment, .plain ]

def name : Category → Text
  | directive => "DIRECTIVE"
  | label => "LABEL"
  | instruction => "INSTRUCTION"
  | jmpCondition => "JMP_CONDITION"
  | register => "REGISTER"
  | modifier => "MODIFIER"
  | movOperator => "MOV_OPERATOR"
  | numericLiteral => "NUMERIC_LITERAL"
  | arrayIndex => "ARRAY_INDEX"
  | foreignBlockDelimiter => "FOREIGN_BLOCK_DELIMITER"
  | foreignBlock => "FOREIGN_BLOCK"
  | comment => "COMMENT"
  | plain => "PLAIN"

def ofName? (name : Text) : Option Category := all.find? (·.name = name)

theorem ofName?_name (c : Category) : ofName? c.name = some c := by cases c <;> decide

end Category

end PioSyntax

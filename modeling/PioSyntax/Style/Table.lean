import PioSyntax.Style.Spec

namespace PioSyntax

abbrev StyleTable := Category → Style

namespace StyleTable

def default : StyleTable
  | .directive => ⟨some "#af00db", true, false⟩
  | .label => ⟨some "#795e26", true, false⟩
  | .instruction => ⟨some "#0000ff", true, false⟩
  | .jmpCondition => ⟨some "#a31515", false, false⟩
  | .register => ⟨some "#001080", false, false⟩
  | .modifier => ⟨some "#267f99", false, true⟩
  | .movOperator => ⟨some "#d16969", true, false⟩
  | .numericLiteral => ⟨some "#098658", false, false⟩
  | .arrayIndex => ⟨some "#0070c1", false, false⟩
  | .foreignBlockDelimiter => ⟨some "#808080", true, false⟩
  | .foreignBlock => .plain
  | .comment => ⟨some "#008000", false, true⟩
  | .plain => .plain

def set (t : StyleTable) (category : Category) (style : Style) : StyleTable :=
  fun c => if c = category then style else t c

/-- Gives a category the style of a specification. Of two faults that of the specification is
reported. -/
def addEntry (t : StyleTable) (name spec : Text) : Except ConfigProblem StyleTable := do
  let style ← Style.ofSpec spec
  let category ← Category.ofUserName name
  return t.set category style

structure Override where
  name : Text
  spec : Option Text

def Override.put (o : Override) : List Override → List Override
  | [] => [o]
  | p :: rest => if p.name = o.name then o :: rest else p :: put o rest

/-- The table in which a name stands where it stood first and has the value it had last. -/
def Override.table (entries : List Override) : List Override :=
  entries.foldl (fun table o => o.put table) []

def override (path : Option Path) (t : StyleTable) (o : Override) : Except ConfigError StyleTable :=
  let located (problem : ConfigProblem) : ConfigError := ⟨problem, path, some ("styles." ++ o.name)⟩
  match o.spec with
  | none => .error (located (.styleNotText o.name))
  | some spec => (t.addEntry o.name spec).mapError located

def resolve (overrides : List Override) (path : Option Path) : Except ConfigError StyleTable :=
  overrides.foldlM (override path) default

end StyleTable

end PioSyntax

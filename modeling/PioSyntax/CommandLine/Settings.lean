import PioSyntax.CommandLine.Arguments
import PioSyntax.FileTree
import PioSyntax.Style.Table
import PioSyntax.Toml.Document

namespace PioSyntax

open Text

abbrev Files := Path → Except FileError Bytes

inductive Fault where
  | undecodable (e : Utf8.Error)
  | file (e : FileError)
  | manyDigits (count : Option Nat)
  | color (e : ColorError)
deriving DecidableEq

def Fault.message : Fault → Text
  | undecodable e => e.message
  | file e => e.message
  | manyDigits count =>
    let found (n : Nat) : Text := ": value has " ++ ofNat n ++ " digits"
    "Exceeds the limit (" ++ ofNat Toml.Value.greatestLength ++
      " digits) for integer string conversion" ++ count.elim [] found ++
      "; use sys.set_int_max_str_digits() to increase the limit"
  | color e => e.message

inductive SettingsError where
  | config (e : ConfigError)
  | styleArgument (argument : Option Text)
  | fault (f : Fault)
deriving DecidableEq

/-- What a run works with. A format that was left blank stays so. -/
structure Settings where
  input : Path
  output : Option Path
  format : Option OutputFormat
  standalone : Bool
  styles : StyleTable
  debug : Bool

namespace Settings

/-- A blank argument is shown as an empty list. -/
def styleArgumentMessage (argument : Option Text) : Text :=
  "invalid style format (expected NAME=SPEC): " ++ argument.getD "[]"

def styleArgument (argument : Text) : Except SettingsError (Text × Text) :=
  match cut? '=' argument with
  | some entry => .ok entry
  | none => .error (.styleArgument (some argument))

def configName : Text := "piolex.toml"

def configPath (config : Option Path) (folder : Path) : Path :=
  config.getD (folder.child configName)

def loadConfig (files : Files) (path : Path) : Except SettingsError Toml.Table :=
  match files path with
  | .error e => if e.problem.isAbsence then .ok [] else .error (.fault (.file e))
  | .ok bytes =>
    match Utf8.decode bytes with
    | .error e => .error (.fault (.undecodable e))
    | .ok text =>
      match Toml.read text with
      | .ok table => .ok table
      | .error .malformed => .error (.config ⟨.invalidToml, some path, none⟩)
      | .error (.manyDigits n) => .error (.fault (.manyDigits (some n)))

def configFormat (path : Path) (config : Toml.Table) : Except SettingsError OutputFormat :=
  match config.get? "format" with
  | none => .ok .html
  | some v =>
    let unknown : Except SettingsError OutputFormat :=
      if v.isLong then .error (.fault (.manyDigits none))
      else .error (.config ⟨.unknownFormat v.toText, some path, some "format"⟩)
    match v with
    | .text name => (OutputFormat.ofName? name).elim unknown .ok
    | _ => unknown

def configStandalone (config : Toml.Table) : Bool :=
  match config.get? "standalone" with
  | some (.boolean b) => b
  | _ => false

def override (e : Text × Toml.Value) : StyleTable.Override :=
  match e.2 with
  | .text spec => ⟨e.1, some spec⟩
  | _ => ⟨e.1, none⟩

def configStyles (path : Path) (config : Toml.Table) :
    Except SettingsError (List StyleTable.Override) :=
  match config.get? "styles" with
  | none => .ok []
  | some (.table entries) => .ok (entries.map override)
  | some _ => .error (.config ⟨.stylesNotTable, some path, some "styles"⟩)

def addStyle (t : StyleTable) (argument : Option Text) : Except SettingsError StyleTable := do
  let (name, spec) ← argument.elim (.error (.styleArgument none)) styleArgument
  (t.addEntry name spec).mapError fun problem => .config ⟨problem, none, none⟩

def merge (path : Path) (config : Toml.Table) (a : CommandLine.Arguments) :
    Except SettingsError Settings := do
  let format ← configFormat path config
  let overrides ← configStyles path config
  let styles ← (StyleTable.resolve overrides (some path)).mapError SettingsError.config
  let styles ← a.styles.foldlM addStyle styles
  return {
    input := Path.ofText a.input
    output := (a.output.filter (· ≠ [])).map Path.ofText
    format := a.format.getD (some format)
    standalone := a.standalone || configStandalone config
    styles := styles
    debug := a.debug }

def configOf (a : CommandLine.Arguments) : Path :=
  configPath ((a.config.filter (· ≠ [])).map Path.ofText) (Path.ofText a.input).parent

def ofArguments (files : Files) (a : CommandLine.Arguments) : Except SettingsError Settings := do
  let config ← loadConfig files (configOf a)
  merge (configOf a) config a

end Settings

end PioSyntax

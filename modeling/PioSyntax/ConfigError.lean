import PioSyntax.Path

namespace PioSyntax

/-- The message about a file that is not TOML leaves out what the decoder says of it. -/
inductive ConfigProblem where
  | unknownCategory (name : Text)
  | unknownStyleWord (word spec : Text)
  | styleNotText (name : Text)
  | unknownFormat (shown : Text)
  | stylesNotTable
  | invalidToml
deriving DecidableEq

def ConfigProblem.message : ConfigProblem → Text
  | unknownCategory name => "unknown token category '" ++ name ++ "'"
  | unknownStyleWord word spec => "invalid style word '" ++ word ++ "' in '" ++ spec ++ "'"
  | styleNotText name => "style for '" ++ name ++ "' must be a string"
  | unknownFormat shown => "unknown output format '" ++ shown ++ "'"
  | stylesNotTable => "[styles] must be a table"
  | invalidToml => "invalid TOML"

structure ConfigError where
  problem : ConfigProblem
  path : Option Path
  key : Option Text
deriving DecidableEq

namespace ConfigError

def report (message : Text) (path : Option Path) (key : Option Text) : Text :=
  let inKey (k : Text) : Text := " [" ++ k ++ "]"
  let inFile (p : Path) : Text := "\n  --> " ++ p.toText ++ key.elim [] inKey
  "error: " ++ message ++ path.elim [] inFile

def format (e : ConfigError) : Text := report e.problem.message e.path e.key

end ConfigError

end PioSyntax

import PioSyntax.Text

namespace PioSyntax

inductive OutputFormat where
  | html
  | ansi
  | tokens
deriving DecidableEq

namespace OutputFormat

def all : List OutputFormat := [.html, .ansi, .tokens]

def name : OutputFormat → Text
  | html => "html"
  | ansi => "ansi"
  | tokens => "tokens"

def ofName? (name : Text) : Option OutputFormat := all.find? (·.name = name)

end OutputFormat

end PioSyntax

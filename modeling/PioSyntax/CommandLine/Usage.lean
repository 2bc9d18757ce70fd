import PioSyntax.OutputFormat
import PioSyntax.Text.Quoted

namespace PioSyntax.CommandLine

open Text

inductive Switch where
  | help
  | output
  | format
  | standalone
  | config
  | style
  | debug
deriving DecidableEq

namespace Switch

def spellings : List (Text × Switch) :=
  [ ("-h", help), ("--help", help), ("-o", output), ("--output", output), ("-f", format),
    ("--format", format), ("--standalone", standalone), ("--config", config), ("--style", style),
    ("--debug", debug) ]

def title (s : Switch) : Text := join "/" ((spellings.filter (·.2 = s)).map (·.1))

def takesValue : Switch → Bool
  | output | format | config | style => true
  | help | standalone | debug => false

end Switch

inductive UsageError where
  | ambiguous (word : Text) (spellings : List Text)
  | missingValue (s : Switch)
  | unwantedValue (s : Switch) (value : Text)
  | unknownFormat (value : Text)
  | missingInput
  | unrecognized (words : List Text)
deriving DecidableEq

namespace UsageError

def aboutSwitch (s : Switch) (text : Text) : Text := "argument " ++ s.title ++ ": " ++ text

def message : UsageError → Text
  | ambiguous word spellings =>
    "ambiguous option: " ++ word ++ " could match " ++ join ", " spellings
  | missingValue s => aboutSwitch s "expected one argument"
  | unwantedValue s value => aboutSwitch s ("ignored explicit argument " ++ quoted value)
  | unknownFormat value =>
    aboutSwitch .format ("invalid choice: " ++ quoted value ++ " (choose from " ++
      join ", " (OutputFormat.all.map fun f => quoted f.name) ++ ")")
  | missingInput => "the following arguments are required: input"
  | unrecognized words => "unrecognized arguments: " ++ join " " words

end UsageError

def usage : Text :=
  "usage: piolex [-h] [-o OUTPUT] [-f \x7bhtml,ansi,tokens\x7d] [--standalone]
              [--config FILE] [--style NAME=SPEC] [--debug]
              input
"

def help : Text :=
  usage ++ "
Syntax highlighter for PIO assembly (.pio) files

positional arguments:
  input                 Input .pio file

options:
  -h, --help            show this help message and exit
  -o OUTPUT, --output OUTPUT
                        Output file (default: stdout)
  -f \x7bhtml,ansi,tokens\x7d, --format \x7bhtml,ansi,tokens\x7d
                        Output format (default: html)
  --standalone          Wrap HTML output in a complete document with a
                        stylesheet
  --config FILE         Config file (default: auto-discover piolex.toml)
  --style NAME=SPEC     Override a category style, e.g. label=\"#aa5500 bold\"
                        (repeatable)
  --debug               Dump the token stream to stderr
"

end PioSyntax.CommandLine

import PioSyntax.CommandLine.Settings
import PioSyntax.Dump
import PioSyntax.Html
import PioSyntax.Terminal

namespace PioSyntax.CommandLine

open Text

inductive Ending where
  | exit (code : Nat)
  | refused (code : Nat)
  | fault (f : Fault)
deriving DecidableEq

structure Report where
  ending : Ending
  stdout : Text
  stderr : Text
  output : Option (Path × Text)

namespace Refusal

def code : Refusal → Nat
  | help => 0
  | usage _ => 2

def stdout : Refusal → Text
  | help => CommandLine.help
  | usage _ => []

def stderr : Refusal → Text
  | help => []
  | usage e => CommandLine.usage ++ "piolex: error: " ++ e.message ++ "\n"

def report (r : Refusal) : Report := ⟨.refused r.code, r.stdout, r.stderr, none⟩

end Refusal

def settingsReport : SettingsError → Report
  | .config e => ⟨.exit 2, [], e.format ++ "\n", none⟩
  | .styleArgument argument =>
    ⟨.exit 2, [], "error: " ++ Settings.styleArgumentMessage argument ++ "\n", none⟩
  | .fault f => ⟨.fault f, [], [], none⟩

def unifyBreaks : Text → Text
  | '\r' :: '\n' :: cs => '\n' :: unifyBreaks cs
  | '\r' :: cs => '\n' :: unifyBreaks cs
  | c :: cs => c :: unifyBreaks cs
  | [] => []

def readSource (files : Files) (path : Path) : Except Fault Text :=
  match files path with
  | .error e => .error (.file e)
  | .ok bytes =>
    match Utf8.decode bytes with
    | .error e => .error (.undecodable e)
    | .ok text => .ok (unifyBreaks text)

def isReadingFault : Fault → Bool
  | .file e => e.problem != .nullByte
  | .undecodable _ => true
  | .manyDigits _ | .color _ => false

def warning (input : Path) : Text :=
  if input.isSource then []
  else "warning: " ++ input.toText ++ " does not have a .pio suffix\n"

def render (o : Settings) (c : Classification) : Except Fault Text :=
  match o.format.getD .html with
  | .html =>
    .ok (if o.standalone then Html.document c o.styles o.input.name else Html.fragment c)
  | .ansi => (Terminal.render c o.styles).mapError .color
  | .tokens => .ok (Dump.render c)

def highlight (files : Files) (o : Settings) : Report :=
  let warned := warning o.input
  match readSource files o.input with
  | .error f =>
    if isReadingFault f then
      ⟨.exit 1, [], warned ++ "error: cannot read " ++ o.input.toText ++ ": " ++ f.message ++ "\n",
        none⟩
    else ⟨.fault f, [], warned, none⟩
  | .ok source =>
    let c := classify source
    let stderr := warned ++ if o.debug then Dump.render c else []
    match render o c, o.output with
    | .error f, _ => ⟨.fault f, [], stderr, none⟩
    | .ok text, none => ⟨.exit 0, text, stderr, none⟩
    | .ok text, some path => ⟨.exit 0, [], stderr, some (path, text)⟩

def runWith (files : Files) (a : Arguments) : Report :=
  match Settings.ofArguments files a with
  | .error e => settingsReport e
  | .ok o => highlight files o

def run (files : Files) (words : List Text) : Report :=
  match Arguments.ofWords words with
  | .error r => r.report
  | .ok a => runWith files a

def readPaths (words : List Text) : List Path :=
  match Arguments.ofWords words with
  | .error _ => []
  | .ok a => [Settings.configOf a, Path.ofText a.input]

structure Outcome where
  ending : Ending
  stdout : Text
  stderr : Text
  tree : FileTree

def Report.deliver (r : Report) (t : FileTree) : Outcome :=
  match r.output with
  | none => ⟨r.ending, r.stdout, r.stderr, t⟩
  | some (path, text) =>
    match t.write path (Utf8.encode text) with
    | .ok t => ⟨r.ending, r.stdout, r.stderr, t⟩
    | .error e => ⟨.fault (.file e), r.stdout, r.stderr, t⟩

def runIn (t : FileTree) (words : List Text) : Outcome := (run t.read words).deliver t

end PioSyntax.CommandLine

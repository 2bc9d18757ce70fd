import PioSyntax.Path
import PioSyntax.Text.Quoted
import PioSyntax.Text.Utf8

namespace PioSyntax

abbrev Location := List Text

inductive FileProblem where
  | notFound
  | denied
  | notDirectory
  | isDirectory
  | nameTooLong
  | nullByte
deriving DecidableEq

def FileProblem.isAbsence : FileProblem → Bool
  | notFound | notDirectory | isDirectory | nullByte => true
  | denied | nameTooLong => false

structure FileError where
  problem : FileProblem
  path : Path
deriving DecidableEq

def FileError.message (e : FileError) : Text :=
  let numbered (text : Text) : Text := "[Errno " ++ text ++ ": " ++ Text.quoted e.path.toText
  match e.problem with
  | .notFound => numbered "2] No such file or directory"
  | .denied => numbered "13] Permission denied"
  | .notDirectory => numbered "20] Not a directory"
  | .isDirectory => numbered "21] Is a directory"
  | .nameTooLong => numbered "36] File name too long"
  | .nullByte => "embedded null byte"

/-- The files and folders below a root, and the folder from which relative paths start. -/
structure FileTree where
  files : List (Location × Bytes)
  folders : List Location
  working : Location

namespace FileTree

inductive Target where
  | file (location : Location) (content : Bytes)
  | folder
  | free (location : Location)

/-- A folder is there along with all that lies in it. -/
def isFolder (t : FileTree) (location : Location) : Bool :=
  location.isPrefixOf t.working || t.folders.any location.isPrefixOf ||
    t.files.any fun f => location.isPrefixOf f.1 && location != f.1

def content? (t : FileTree) (location : Location) : Option Bytes :=
  (t.files.find? (·.1 = location)).map (·.2)

def greatestName : Nat := 255

def greatestPath : Nat := 4095

/-- Follows names from a folder. Two points lead to the folder above, and at the root nowhere. -/
def follow (t : FileTree) (place : Location) : List Text → Except FileProblem Target
  | [] => .ok .folder
  | name :: names =>
    if name = ['.', '.'] then follow t place.dropLast names
    else if greatestName < (Utf8.encode name).length then .error .nameTooLong
    else
      let next := place ++ [name]
      match t.content? next with
      | some content => if names.isEmpty then .ok (.file next content) else .error .notDirectory
      | none =>
        if t.isFolder next then follow t next names
        else if names.isEmpty then .ok (.free next)
        else .error .notFound

def target (t : FileTree) (p : Path) : Except FileProblem Target :=
  if p.toText.contains '\x00' then .error .nullByte
  else if greatestPath < (Utf8.encode p.toText).length then .error .nameTooLong
  else t.follow (if p.slashes = 0 then t.working else []) p.components

def read (t : FileTree) (p : Path) : Except FileError Bytes :=
  match t.target p with
  | .ok (.file _ content) => .ok content
  | .ok .folder => .error ⟨.isDirectory, p⟩
  | .ok (.free _) => .error ⟨.notFound, p⟩
  | .error problem => .error ⟨problem, p⟩

def put (location : Location) (content : Bytes) : List (Location × Bytes) → List (Location × Bytes)
  | [] => [(location, content)]
  | f :: files =>
    if f.1 = location then (location, content) :: files else f :: put location content files

def withFile (t : FileTree) (location : Location) (content : Bytes) : FileTree :=
  { t with files := put location content t.files }

def write (t : FileTree) (p : Path) (content : Bytes) : Except FileError FileTree :=
  match t.target p with
  | .ok (.file location _) | .ok (.free location) => .ok (t.withFile location content)
  | .ok .folder => .error ⟨.isDirectory, p⟩
  | .error problem => .error ⟨problem, p⟩

def start : Location := ["work"]

def ofEntries (files : List (Text × Bytes)) (folders : List Text) : FileTree :=
  let locate (path : Text) : Location := start ++ (Path.ofText path).components
  ⟨files.map fun f => (locate f.1, f.2), folders.map locate, start⟩

def changes (before after : FileTree) : List (Location × Bytes) :=
  (after.files.filter fun f => before.content? f.1 != some f.2).filterMap fun f =>
    (after.working.isPrefixOf? f.1).map fun names => (names, f.2)

end FileTree

end PioSyntax

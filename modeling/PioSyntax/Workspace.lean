import PioSyntax.Diagnostic
import PioSyntax.Uri

namespace PioSyntax

/-- The texts of the open documents. Which document a URI names is for the library to say that keeps
the workspace. -/
structure Workspace where
  document : Text → Text
  texts : Text → Option Text

namespace Workspace

inductive Request where
  | opened (uri text : Text)
  | changed (uri : Text) (texts : List Text)
  | tokens (uri : Text)
  | closed (uri : Text)

inductive Failure where
  | notOpen
  | noSuchFile
deriving DecidableEq

inductive Answer where
  | diagnostics (uri : Text) (diagnostics : List Diagnostic)
  | tokens (data : List Int)
  | closed
  | failed (failure : Failure)

def named (document : Text → Text) : Workspace := ⟨document, fun _ => none⟩

/-- What the server is run with, where a URI names what it is when unquoted. -/
def empty : Workspace := named Uri.unquote

def text? (w : Workspace) (uri : Text) : Option Text := w.texts (w.document uri)

def set (w : Workspace) (uri : Text) (text : Option Text) : Workspace :=
  { w with texts := fun document => if document = w.document uri then text else w.texts document }

def publish (e : Encoding) (w : Workspace) (uri : Text) : Answer :=
  match w.text? uri with
  | some text => .diagnostics uri (Diagnostic.ofClassification e (classify text))
  | none => .failed .noSuchFile

def answer (e : Encoding) (w : Workspace) : Request → Workspace × Answer
  | .opened uri text =>
    let w := w.set uri (some text)
    (w, w.publish e uri)
  | .changed uri texts =>
    match texts.getLast?, w.text? uri with
    | some _, none => (w, .failed .notOpen)
    | some text, some _ =>
      let w := w.set uri (some text)
      (w, w.publish e uri)
    | none, _ => (w, w.publish e uri)
  | .tokens uri =>
    match w.text? uri with
    | some text => (w, .tokens (SemanticToken.encode e (classify text)))
    | none => (w, .failed .noSuchFile)
  | .closed uri => (w.set uri none, .closed)

def answers (e : Encoding) (w : Workspace) : List Request → List Answer
  | [] => []
  | r :: requests =>
    let (w, a) := w.answer e r
    a :: answers e w requests

end Workspace

end PioSyntax

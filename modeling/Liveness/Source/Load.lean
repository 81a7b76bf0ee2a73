/-
Liveness/Source/Load.lean

Programs out of files.  A file with the suffix `.json` holds an ESTree document.
Any other file holds source text, which a front-end outside this library turns
into such a document; blank source is the empty program and needs none.
-/
import Liveness.Estree.Program
import Liveness.Source.Folder
import Liveness.Text.Blank
import Liveness.Text.Digit
import Liveness.Text.Utf8

namespace Liveness

/-- What the front-end answers when it is run on a source text. -/
structure FrontEndAnswer where
  code : Int
  output : String
  errors : String
  deriving DecidableEq, Repr

/-- What a run may look at: its environment, files, and the answer of the front-end, if it starts. -/
structure Host where
  environment : String → Option String
  read : Path → Except FileFault (List UInt8)
  frontEnd : Option FrontEndAnswer

/-- Why a file gives no program. -/
inductive SourceError where
  | file (path : Path) (fault : FileFault)
  | encoding (fault : Text.Utf8.Fault)
  | tree (error : LoadError)
  | frontEndMissing (command : String)
  | frontEndFailed (errors : String)
  | frontEndOutput
  /-- A document holds an integer that is too long to be read. -/
  | integerTooLong (error : Json.ReadError)

/-- The wording of the errors that concern a file or the front-end. -/
def SourceError.message : SourceError → String
  | .file path fault => fault.message path
  | .encoding fault => fault.message
  | .tree (.malformed m) => m.message
  | .tree _ => ""
  | .frontEndMissing command => s!"Could not start the JavaScript front-end '{command}'."
  | .frontEndFailed errors => s!"acorn failed: {errors}"
  | .frontEndOutput => "Failed to parse acorn AST JSON output."
  | .integerTooLong error => error.message

/-- What loading leaves a note of: a start of the front-end, or something about the tree. -/
inductive SourceNote where
  | started (command source : String)
  | tree (note : Estree.Note)

/-- Loading with notes. -/
abbrev Loading := Noted SourceNote SourceError

/-- The program of a document. -/
def loadTree (tree : Json) : Loading Program :=
  let reading := Program.read tree
  ⟨reading.notes.map .tree, reading.result.mapError .tree⟩

/-- The text of a file. -/
def loadText (host : Host) (path : Path) : Except SourceError (List Char) := do
  let bytes ← (host.read path).mapError (.file path)
  let text ← (Text.Utf8.decode bytes).mapError .encoding
  return Text.unifyNewlines text

/-- The program in a file that holds a document. -/
def loadDocument (host : Host) (path : Path) : Loading Program := do
  let text ← loadText host path
  match Json.parseWithin Text.digitLimit text with
  | .ok tree => loadTree tree
  | .error e =>
    if e.isLimit then Noted.fail (.integerTooLong e)
    else Noted.fail (.tree (.malformed ⟨"Program", none, .notJson path.text e⟩))

/-- The document that the front-end makes of a source text. -/
def frontEndTree (host : Host) (command : String) : Except SourceError Json :=
  match host.frontEnd with
  | none => .error (.frontEndMissing command)
  | some answer =>
    if answer.code != 0 then
      let errors := Text.strip answer.errors
      .error (.frontEndFailed (if errors == "" then Text.strip answer.output else errors))
    else
      (Json.parseWithin Text.digitLimit answer.output.toList).mapError fun e =>
        if e.isLimit then .integerTooLong e else .frontEndOutput

/-- The program of a source text. -/
def loadSource (host : Host) (source : String) : Loading Program :=
  if Text.strip source == "" then pure ⟨0, []⟩
  else do
    let command := (host.environment "NODE_CMD").getD "node"
    Noted.note (.started command source)
    loadTree (← frontEndTree host command)

/-- The program in a file and, if the file holds source text, that text. -/
def loadFile (host : Host) (path : Path) : Loading (Program × Option String) := do
  if path.hasSuffix ".json" then
    return (← loadDocument host path, none)
  else
    let source := String.ofList (← loadText host path)
    return (← loadSource host source, some source)

end Liveness

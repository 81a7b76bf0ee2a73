/-
Liveness/Command/Session.lean

Runs of the command line over a folder.  Each run sees the files that the runs
before it have written.
-/
import Liveness.Command.Run

namespace Liveness.Command

/-- How a run ended. -/
inductive Finish where
  | exit (code : Nat)
  | usage (error : UsageError)
  | crash (error : LoadError)
  | unusable (error : ConfigError)
  | unwritten (error : Report.Unwritten)
  | notSaved (fault : FileFault)

/-- What a run left behind. -/
structure Transcript where
  output : String := ""
  errors : String := ""
  finish : Finish := .exit exitOk

/-- Carry out actions in order, until one fails. -/
def perform (folder : Folder) (t : Transcript) : List Action → Except FileFault Unit × Folder × Transcript
  | [] => (.ok (), folder, t)
  | .log r :: rest => perform folder { t with errors := t.errors ++ r.line } rest
  | .print text :: rest => perform folder { t with output := t.output ++ text } rest
  | .save path text :: rest =>
    match folder.write path text.toUTF8.toList with
    | .ok folder => perform folder t rest
    | .error fault => (.error fault, folder, t)

/-- The environment, the front-end and the folder that runs share, with the front-end starts. -/
structure Session where
  folder : Folder
  environment : String → Option String
  frontEnd : Option FrontEndAnswer
  started : List (String × String) := []

/-- The host of a run. -/
def Session.host (s : Session) : Host :=
  { environment := s.environment, read := s.folder.read, frontEnd := s.frontEnd }

/-- The text of the program's own options, one on a line. -/
def helpText : String :=
  String.intercalate "\n" ("options:" :: (flagNames.map fun (name, _) => "  " ++ name)) ++ "\n"

/-- One run with some arguments. -/
def Session.run (s : Session) (arguments : List String) : Transcript × Session :=
  match Options.parse arguments with
  | .error .help => ({ output := helpText }, s)
  | .error (.usage e) => ({ errors := s!"jslive: error: {e.message}\n", finish := .usage e }, s)
  | .ok options =>
    let plan := plan s.host options
    let (outcome, folder, t) := perform s.folder {} plan.actions
    let finish :=
      match outcome, plan.ending with
      | .error fault, _ => .notSaved fault
      | .ok (), .exit code => .exit code
      | .ok (), .crash e => .crash e
      | .ok (), .unusable e => .unusable e
      | .ok (), .unwritten e => .unwritten e
    ({ t with finish }, { s with folder, started := s.started ++ plan.started })

/-- Runs one after another. -/
def Session.runs (s : Session) : List (List String) → List Transcript × Session
  | [] => ([], s)
  | arguments :: rest =>
    let (t, s) := s.run arguments
    let (ts, s) := s.runs rest
    (t :: ts, s)

end Liveness.Command

/-
Liveness/Command/Run.lean

What a run of the command line does, as a value.  A run looks at its environment, one
file and perhaps the front-end, and then asks for actions in order: log lines,
text on the output, a file to write.  An action that fails ends the run.

Settings of the command line come after those of the environment.  Errors that a
user can mend are logged and give exit code 2; a document that the reader cannot
look into, a cap that is no number, and a report that cannot be written end the run
without a code.
-/
import Liveness.Command.Log
import Liveness.Command.Options
import Liveness.Report.Dot
import Liveness.Report.Json
import Liveness.Source.Load

namespace Liveness.Command

/-- One thing that a run asks for. -/
inductive Action where
  | log (record : Record)
  | print (text : String)
  | save (path : Path) (text : String)

/-- How a run ends if all its actions succeed. -/
inductive Ending where
  | exit (code : Nat)
  | crash (error : LoadError)
  | unusable (error : ConfigError)
  | unwritten (error : Report.Unwritten)

/-- What a run does. -/
structure Plan where
  started : List (String × String)
  actions : List Action
  ending : Ending

/-- Exit codes. -/
def exitOk : Nat := 0

/-- The exit code of a run that was asked to fail on findings. -/
def exitFindings : Nat := 1

/-- The exit code of an error. -/
def exitError : Nat := 2

/-- A line of the command itself. -/
def own (level : Level) (message : String) : Action :=
  .log ⟨level, "jslive", message⟩

/-- The configuration of a run. -/
def configOf (host : Host) (o : Options) : Except ConfigError Config := do
  let config ← Config.ofEnvironment host.environment
  let config ← if o.observers.isEmpty then pure config else config.replace (some o.observers) none
  match o.maxPasses with
  | none => return config
  | some (.number n) => config.replace none (some n)
  | some .empty => throw (.wrongKind .arr)

/-- The report that a run asks for. -/
def reportOf (o : Options) (a : Analysis) (source : Option String) :
    Except Report.Unwritten String :=
  match o.format with
  | .text => .ok (Report.text a source)
  | .dot => .ok (Report.dot a (Path.ofString o.file).stem)
  | .json => Report.json a

/-- A text that is there and not empty. -/
def given : Option String → Option String
  | some "" => none
  | text => text

/-- The actions that deliver a report, and the exit code. -/
def deliver (o : Options) (a : Analysis) (report : String) : List Action × Nat :=
  let delivery :=
    match given o.output with
    | some path => Action.save (.ofString path) report
    | none => .print report
  match given o.image with
  | some _ =>
    ([delivery, own .error
      "Rendering images needs the graphviz package: pip install 'jslive[viz]'."], exitError)
  | none =>
    (delivery :: a.findings.map fun f => own .warning f.text,
      if o.failOnFindings && !a.findings.isEmpty then exitFindings else exitOk)

/-- The front-end starts among the notes of loading. -/
def startsOf (notes : List SourceNote) : List (String × String) :=
  notes.filterMap fun
    | .started command source => some (command, source)
    | .tree _ => none

/-- The log lines among the notes of loading. -/
def recordsOf (notes : List SourceNote) : List Action :=
  notes.filterMap fun
    | .started .. => none
    | .tree note => some (.log (.ofNote note))

/-- A run that ends in an error which the user can mend. -/
def failing (started : List (String × String)) (actions : List Action) (what message : String) :
    Plan :=
  { started, actions := actions ++ [own .error s!"{what}: {message}"], ending := .exit exitError }

/-- What is wrong, in a log line. -/
def malformedTree : String := "malformed syntax tree"

/-- All that a run asks for, log lines of every level included. -/
def fullPlan (host : Host) (o : Options) : Plan :=
  match configOf host o with
  | .error (.wrongKind found) =>
    { started := [], actions := [], ending := .unusable (.wrongKind found) }
  | .error e => failing [] [] "error" e.message
  | .ok config =>
    let loading := loadFile host (.ofString o.file)
    let started := startsOf loading.notes
    let records := recordsOf loading.notes
    match loading.result with
    | .error (.tree (.malformed m)) => failing started records malformedTree m.message
    | .error (.tree e) => { started, actions := records, ending := .crash e }
    | .error e => failing started records "error" e.message
    | .ok (program, source) =>
      let records := records ++ (Record.ofAnalysis program config).map .log
      match program.analyze config with
      | .error (.malformed m) => failing started records malformedTree m.message
      | .error (.diverged d) => failing started records "error" d.message
      | .ok a =>
        match reportOf o a source with
        | .error e => { started, actions := records, ending := .unwritten e }
        | .ok report =>
          let (actions, code) := deliver o a report
          { started, actions := records ++ actions, ending := .exit code }

/-- Whether an action is carried out at a verbosity. -/
def Action.isWanted (verbosity : Nat) : Action → Bool
  | .log r => r.isShown verbosity
  | _ => true

/-- What a run does. -/
def plan (host : Host) (o : Options) : Plan :=
  let p := fullPlan host o
  { p with actions := p.actions.filter (Action.isWanted o.verbosity) }

end Liveness.Command

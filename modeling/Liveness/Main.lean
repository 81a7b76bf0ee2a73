/-
Liveness/Main.lean

The command line.  Reads the environment and the file that a run looks at, plans
the run, and carries out its actions.  No front-end can be started from here, so
only documents and blank sources are analysed.
-/
import Liveness.Command.Session

namespace Liveness.Command

/-- The fault behind an error of the system. -/
def faultOf : IO.Error → FileFault
  | .inappropriateType .. => .isDirectory
  | .otherError 21 _ => .isDirectory
  | .otherError 20 _ => .belowFile
  | .otherError 36 _ => .nameTooLong
  | _ => .missing

/-- The bytes of a file. -/
def readBytes (path : Path) : IO (Except FileFault (List UInt8)) := do
  try
    return .ok (← IO.FS.readBinFile path.text).toList
  catch e => return .error (faultOf e)

/-- Carry out an action. -/
def carryOut : Action → IO Unit
  | .log r => do (← IO.getStderr).putStr r.line
  | .print text => do (← IO.getStdout).putStr text
  | .save path text => IO.FS.writeFile path.text text

/-- Run with some arguments and give the exit code. -/
def runMain (arguments : List String) : IO UInt32 := do
  match Options.parse arguments with
  | .error .help =>
    (← IO.getStdout).putStr helpText
    return 0
  | .error (.usage e) =>
    (← IO.getStderr).putStr s!"jslive: error: {e.message}\n"
    return 2
  | .ok options =>
    let names := ["JSLIVE_OBSERVERS", "JSLIVE_MAX_PASSES", "NODE_CMD"]
    let environment ← names.filterMapM fun name => do
      return (← IO.getEnv name).map (name, ·)
    let bytes ← readBytes (.ofString options.file)
    let host : Host :=
      { environment := fun name => environment.lookup name, read := fun _ => bytes, frontEnd := none }
    let plan := plan host options
    plan.actions.forM carryOut
    match plan.ending with
    | .exit code => return code.toUInt32
    | .crash _ =>
      (← IO.getStderr).putStr "the document cannot be read\n"
      return 1
    | .unusable e =>
      (← IO.getStderr).putStr (e.message ++ "\n")
      return 1
    | .unwritten e =>
      (← IO.getStderr).putStr (e.message ++ "\n")
      return 1

end Liveness.Command

/-- The entry of the command line. -/
def main (arguments : List String) : IO UInt32 :=
  Liveness.Command.runMain arguments

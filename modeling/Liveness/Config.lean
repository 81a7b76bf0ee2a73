/-
Liveness/Config.lean

The knobs of the analysis: which calls read their arguments, and how many sweeps
the solver may take.  A configuration is checked when it is made, the cap before
the observers.
-/
import Liveness.Dataflow.Access
import Liveness.Dataflow.Solver
import Liveness.Json.Basic
import Liveness.Text.Numeral
import Liveness.Text.Quoted

namespace Liveness

/-- The configuration of an analysis. -/
structure Config where
  observers : List String := defaultObservers
  maxPasses : Int := defaultCap
  deriving DecidableEq, Repr

/-- Why settings are no configuration. -/
inductive ConfigError where
  /-- The cap is below one. -/
  | capTooLow
  /-- An observer is empty or no text. -/
  | observerUnnamed
  /-- A text that should write the cap does not write an integer. -/
  | capNotANumeral (text : String)
  /-- The cap is no number, or the observers are no list. -/
  | wrongKind (found : Json.Kind)
  /-- There is no setting of this name. -/
  | unknownSetting (name : String)
  deriving DecidableEq, Repr

/-- The wording of a configuration error. -/
def ConfigError.message : ConfigError → String
  | .capTooLow => "max_passes must be at least 1."
  | .observerUnnamed => "observers must be non-empty call names."
  | .capNotANumeral text => s!"JSLIVE_MAX_PASSES must be an integer, got {Text.quoted text}."
  | .wrongKind found => s!"unexpected {found.name}"
  | .unknownSetting name => s!"unknown setting {name}"

namespace Config

/-- The observers of a configuration, as calls: all of them have names. -/
def calls (c : Config) : List (Option String) :=
  c.observers.map some

/-- A configuration that has been checked. -/
def check (c : Config) : Except ConfigError Config :=
  if c.maxPasses < 1 then .error .capTooLow
  else if c.observers.all (· != "") then .ok c
  else .error .observerUnnamed

/-- Another configuration with some settings replaced. -/
def replace (c : Config) (observers : Option (List String)) (maxPasses : Option Int) :
    Except ConfigError Config :=
  check ⟨observers.getD c.observers, maxPasses.getD c.maxPasses⟩

/-! ### Settings in the environment -/

/-- The call names in a list separated by commas; empty ones are left out. -/
def observerList (text : String) : List String :=
  (text.toList.splitOn ',').filterMap fun name =>
    let name := String.ofList (Text.trim Text.isBlank name)
    if name == "" then none else some name

/-- The configuration that the environment asks for.  A variable that is blank is not set. -/
def ofEnvironment (environment : String → Option String) : Except ConfigError Config := do
  let setting (name : String) : Option String :=
    let text := Text.strip ((environment name).getD "")
    if text == "" then none else some text
  let maxPasses ← (setting "JSLIVE_MAX_PASSES").mapM fun text =>
    match Text.Numeral.read? text with
    | some n => .ok n
    | none => .error (.capNotANumeral text)
  replace {} ((setting "JSLIVE_OBSERVERS").map observerList) maxPasses

/-! ### Settings in a document -/

/-- The observers that a document lists; a text lists its characters. -/
def observersOf : Json → Except ConfigError (List Json)
  | .arr items => .ok items
  | .str s => .ok (s.toList.map fun c => .str (String.singleton c))
  | .obj members => .ok (members.map fun m => .str m.1)
  | j => .error (.wrongKind j.kind)

/-- The calls that a list of values names as observers; `null` stands for those without a name.
Numbers name no call, and lists and objects cannot be names. -/
def callsOf (j : Json) : Except ConfigError (List (Option String)) := do
  let names ← (← observersOf j).mapM fun
    | .str name => .ok [some name]
    | .null => .ok [none]
    | .arr _ => .error (.wrongKind .arr)
    | .obj _ => .error (.wrongKind .obj)
    | _ => .ok []
  return names.flatten

/-- A cap that no run of the solver reaches: it is above every finite fraction. -/
def neverReached : Int := Nat.pow 2 1024

/-- The integer that caps passes as a number does: a fraction caps like the next integer, and
what is above all fractions, or is no number, never does. -/
def capOf : Json → Except ConfigError Int
  | .int n => .ok n
  | .bool b => .ok (if b then 1 else 0)
  | .float x =>
    match x.ceiling? with
    | some n => .ok n
    | none => .ok (if x.less (.ofInt 0) then 0 else neverReached)
  | j => .error (.wrongKind j.kind)

/-- The cap that a document sets.  A fraction below one is too low, though it caps like one. -/
def settingOf (j : Json) : Except ConfigError Int := do
  let cap ← capOf j
  match j with
  | .float x => if x.less (.ofInt 1) then .error .capTooLow else .ok cap
  | _ => .ok cap

/-- Another configuration with the settings of a document. -/
def replaceFrom (c : Config) (settings : Json) : Except ConfigError Config := do
  let observers ← (settings.get? "observers").mapM observersOf
  let maxPasses ← (settings.get? "max_passes").mapM settingOf
  let names := observers.map fun items => items.map fun
    | .str s => s
    | _ => ""
  c.replace names maxPasses

/-- A configuration with its cap as the number that was given for it. -/
structure Given where
  config : Config := {}
  cap : Json := .int config.maxPasses

/-- Another configuration with the settings of a document, and the number it gives as cap.  What
is no setting is passed over. -/
def Given.adopt (g : Given) (settings : Json) : Except ConfigError Given := do
  let config ← g.config.replaceFrom settings
  return ⟨config, (settings.get? "max_passes").getD g.cap⟩

/-- The names of the settings. -/
def settingNames : List String := ["observers", "max_passes"]

/-- Another configuration with the settings of a document, which may hold nothing else. -/
def Given.replace (g : Given) (settings : Json) : Except ConfigError Given :=
  match settings with
  | .obj members =>
    match members.find? fun m => !settingNames.contains m.1 with
    | some m => .error (.unknownSetting m.1)
    | none => g.adopt settings
  | _ => g.adopt settings

end Config

end Liveness

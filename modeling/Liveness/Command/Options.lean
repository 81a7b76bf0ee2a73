/-
Liveness/Command/Options.lean

The options of the command line.  Options and the one file may be mixed.  A long
option may be cut short as long as it stays unique, and takes its value after an
equals sign or as the next argument.  Short options may be grouped, and the last
of a group may be followed by its value; a sign after the first option of a group
is passed over, one further on belongs to the value.  Two dashes end the options,
and an argument that looks like a negative number is never one.  Two dashes that
stand as a value in the same argument as their option leave the option empty.

Arguments are first sorted into slots, which is where an ambiguous option is
found, and then read from left to right.  A wrong value is an error when it is
read; a missing file and arguments left over are errors at the end, in this
order.
-/
import Liveness.Text.Digit
import Liveness.Text.Numeral
import Liveness.Text.Quoted

namespace Liveness.Command

/-- The formats of a report. -/
inductive Format where
  | text
  | dot
  | json
  deriving DecidableEq, Repr

/-- The formats by name. -/
def Format.byName : List (String × Format) :=
  [("text", .text), ("dot", .dot), ("json", .json)]

/-- The cap on passes as a command line gives it: a number, or an empty value. -/
inductive CapOption where
  | number (n : Int)
  | empty
  deriving DecidableEq, Repr

/-- What a command line asks for. -/
structure Options where
  file : String
  format : Format := .text
  output : Option String := none
  image : Option String := none
  observers : List String := []
  maxPasses : Option CapOption := none
  failOnFindings : Bool := false
  verbosity : Nat := 0
  deriving DecidableEq, Repr

/-- The options. -/
inductive Flag where
  | help
  | format
  | output
  | image
  | observer
  | maxPasses
  | failOnFindings
  | verbose
  deriving DecidableEq, Repr

/-- The names of an option. -/
def Flag.names : Flag → List String
  | .help => ["-h", "--help"]
  | .format => ["--format"]
  | .output => ["-o", "--output"]
  | .image => ["--render"]
  | .observer => ["--observer"]
  | .maxPasses => ["--max-passes"]
  | .failOnFindings => ["--fail-on-findings"]
  | .verbose => ["-v", "--verbose"]

/-- Whether an option takes a value. -/
def Flag.takesValue : Flag → Bool
  | .format | .output | .image | .observer | .maxPasses => true
  | .help | .failOnFindings | .verbose => false

/-- The names of an option as messages show them. -/
def Flag.title (f : Flag) : String :=
  String.intercalate "/" f.names

/-- Every name with its option. -/
def flagNames : List (String × Flag) :=
  [Flag.help, .format, .output, .image, .observer, .maxPasses, .failOnFindings, .verbose].flatMap
    fun flag => flag.names.map (·, flag)

/-- What is wrong with a command line. -/
inductive UsageError where
  | ambiguous (argument : String) (candidates : List String)
  | valueMissing (flag : Flag)
  | valueIgnored (flag : Flag) (value : String)
  | notAnInteger (flag : Flag) (value : String)
  | notAFormat (flag : Flag) (value : String)
  | fileMissing
  | unrecognized (arguments : List String)
  deriving DecidableEq, Repr

/-- The wording of a usage error. -/
def UsageError.message : UsageError → String
  | .ambiguous argument candidates =>
    s!"ambiguous option: {argument} could match " ++ String.intercalate ", " candidates
  | .valueMissing flag => s!"argument {flag.title}: expected one argument"
  | .valueIgnored flag value =>
    s!"argument {flag.title}: ignored explicit argument {Text.quoted value}"
  | .notAnInteger flag value =>
    s!"argument {flag.title}: invalid int value: {Text.quoted value}"
  | .notAFormat flag value =>
    let choices := String.intercalate ", " (Format.byName.map fun f => Text.quoted f.1)
    s!"argument {flag.title}: invalid choice: {Text.quoted value} (choose from {choices})"
  | .fileMissing => "the following arguments are required: file"
  | .unrecognized arguments => "unrecognized arguments: " ++ String.intercalate " " arguments

/-! ### Slots -/

/-- What an argument is; an option may have text attached in the same argument. -/
inductive Slot where
  | value (text : String)
  | separator
  | option (name : String) (flag : Flag) (attached : Option String)
  | unknown (text : String)
  deriving DecidableEq, Repr

/-- Whether a text is a decimal numeral behind a minus sign. -/
def looksNegative (cs : List Char) : Bool :=
  match cs with
  | '-' :: rest =>
    let rest := if rest.getLast? == some '\n' then rest.dropLast else rest
    let tail := rest.dropWhile Text.isDecimal
    (tail.isEmpty && !rest.isEmpty) ||
      match tail with
      | '.' :: fraction => !fraction.isEmpty && fraction.all Text.isDecimal
      | _ => false
  | _ => false

/-- A text cut at its first equals sign, if it has one. -/
def cutAtSign (cs : List Char) : String × Option String :=
  let before := cs.takeWhile (· != '=')
  let name := String.ofList before
  if before.length == cs.length then (name, none)
  else (name, some (String.ofList (cs.drop (before.length + 1))))

/-- The options that an argument, which is not the whole name of one, may stand for. -/
def candidates (cs : List Char) : List Slot :=
  match cs with
  | '-' :: '-' :: _ =>
    let (start, attached) := cutAtSign cs
    flagNames.filterMap fun (name, flag) =>
      if start.toList.isPrefixOf name.toList then some (.option name flag attached) else none
  | _ =>
    let short := String.ofList (cs.take 2)
    flagNames.filterMap fun (name, flag) =>
      if name == short then some (.option name flag (some (String.ofList (cs.drop 2))))
      else if cs.isPrefixOf name.toList then some (.option name flag none)
      else none

/-- The name of the option in a slot. -/
def Slot.name : Slot → String
  | .option name _ _ => name
  | .value text | .unknown text => text
  | .separator => "--"

/-- What an argument before the end of the options is. -/
def Slot.ofArgument (argument : String) : Except UsageError Slot :=
  let cs := argument.toList
  if cs.head? != some '-' then .ok (.value argument)
  else
    match flagNames.lookup argument with
    | some flag => .ok (.option argument flag none)
    | none =>
      if cs.length == 1 then .ok (.value argument)
      else
        let (name, attached) := cutAtSign cs
        match attached, flagNames.lookup name with
        | some attached, some flag => .ok (.option name flag (some attached))
        | _, _ =>
          match candidates cs with
          | [slot] => .ok slot
          | [] =>
            if looksNegative cs || cs.contains ' ' then .ok (.value argument)
            else .ok (.unknown argument)
          | slots => .error (.ambiguous argument (slots.map Slot.name))

/-- What the arguments are; after two dashes all are values. -/
def slots : List String → Except UsageError (List Slot)
  | [] => .ok []
  | argument :: rest =>
    if argument == "--" then .ok (.separator :: rest.map .value)
    else do
      let slot ← Slot.ofArgument argument
      return slot :: (← slots rest)

/-! ### Reading -/

/-- What has been read of a command line. -/
structure Progress where
  file : Option String := none
  settings : Options := { file := "" }
  leftOver : List String := []

/-- How reading a command line may end early. -/
inductive Stop where
  | help
  | usage (error : UsageError)
  deriving DecidableEq, Repr

/-- Set an option that takes a value. -/
def Progress.set (p : Progress) (flag : Flag) (value : String) : Except Stop Progress :=
  let settings := p.settings
  match flag with
  | .format =>
    match Format.byName.lookup value with
    | some format => .ok { p with settings := { settings with format } }
    | none => .error (.usage (.notAFormat flag value))
  | .output => .ok { p with settings := { settings with output := some value } }
  | .image => .ok { p with settings := { settings with image := some value } }
  | .observer => .ok { p with settings := { settings with observers := settings.observers ++ [value] } }
  | .maxPasses =>
    match Text.Numeral.read? value with
    | some n => .ok { p with settings := { settings with maxPasses := some (.number n) } }
    | none => .error (.usage (.notAnInteger flag value))
  | _ => .ok p

/-- Leave an option that takes a value empty.  The report is then the plain one and goes to the
output; an observer without a name and a cap without a number are found wrong later. -/
def Progress.clear (p : Progress) (flag : Flag) : Progress :=
  let settings := p.settings
  match flag with
  | .format => { p with settings := { settings with format := .text } }
  | .output => { p with settings := { settings with output := none } }
  | .image => { p with settings := { settings with image := none } }
  | .observer => { p with settings := { settings with observers := settings.observers ++ [""] } }
  | .maxPasses => { p with settings := { settings with maxPasses := some .empty } }
  | _ => p

/-- Set an option by a value that is attached to it. -/
def Progress.setAttached (p : Progress) (flag : Flag) (value : String) : Except Stop Progress :=
  if value == "--" then .ok (p.clear flag) else p.set flag value

/-- Set an option that takes no value. -/
def Progress.raise (p : Progress) (flag : Flag) : Except Stop Progress :=
  let settings := p.settings
  match flag with
  | .help => .error .help
  | .failOnFindings => .ok { p with settings := { settings with failOnFindings := true } }
  | .verbose => .ok { p with settings := { settings with verbosity := settings.verbosity + 1 } }
  | _ => .ok p

/-- What a group of short options asks for: those without a value, then perhaps one with its
value or one that still needs a value. -/
structure Group where
  raised : List Flag
  valued : Option (Flag × String) := none
  needs : Option Flag := none

/-- Read an option with what is attached to it; `raised` holds the short options before it in the
same argument.  What is attached to an option without a value has to start with another short
option.  The recursion follows the characters of the group. -/
def readGroup (raised : List Flag) (long : Bool) (flag : Flag) :
    (attached : List Char) → Except UsageError Group
  | [] =>
    if flag.takesValue then .ok { raised, valued := some (flag, "") }
    else .error (.valueIgnored flag "")
  | c :: rest =>
    let value := String.ofList (c :: rest)
    if flag.takesValue then .ok { raised, valued := some (flag, value) }
    else
      match if long then none else flagNames.lookup (String.ofList ['-', c]) with
      | none => .error (.valueIgnored flag value)
      | some next =>
        if rest.isEmpty then
          if next.takesValue then .ok { raised := raised ++ [flag], needs := some next }
          else .ok { raised := raised ++ [flag, next] }
        else readGroup (raised ++ [flag]) false next rest

/-- The group that an option slot stands for. -/
def Group.ofSlot (name : String) (flag : Flag) : Option String → Except UsageError Group
  | none => .ok (if flag.takesValue then { raised := [], needs := some flag } else { raised := [flag] })
  | some attached => readGroup [] ("--".toList.isPrefixOf name.toList) flag attached.toList

/-- Take what a group asks for. -/
def Progress.take (p : Progress) (g : Group) : Except Stop Progress := do
  let p ← g.raised.foldlM Progress.raise p
  match g.valued with
  | some (flag, value) => p.setAttached flag value
  | none => return p

/-- Take a value that belongs to no option: the file, if it is the first. -/
def Progress.takeValue (p : Progress) (text : String) : Progress :=
  match p.file with
  | none => { p with file := some text }
  | some _ => { p with leftOver := p.leftOver ++ [text] }

/-- Read what follows two dashes.  The dashes themselves are left over unless the file stands
right after them. -/
def Progress.readRest (p : Progress) (rest : List Slot) : Progress :=
  let values := rest.map Slot.name
  match p.file, values with
  | none, file :: values => { p with file := some file, leftOver := p.leftOver ++ values }
  | _, _ => { p with leftOver := p.leftOver ++ "--" :: values }

/-- Read the slots from left to right.  Two dashes right after the file belong to it. -/
def Progress.read (p : Progress) : List Slot → Except Stop Progress
  | [] => .ok p
  | .value text :: .separator :: rest =>
    match p.file with
    | none => .ok { p with file := some text, leftOver := p.leftOver ++ rest.map Slot.name }
    | some _ => .ok ((p.takeValue text).readRest rest)
  | .value text :: rest => (p.takeValue text).read rest
  | .separator :: rest => .ok (p.readRest rest)
  | .unknown text :: rest => ({ p with leftOver := p.leftOver ++ [text] } : Progress).read rest
  | .option name flag attached :: rest => do
    let group ← (Group.ofSlot name flag attached).mapError Stop.usage
    match group.needs with
    | none => (← p.take group).read rest
    | some needing =>
      match rest with
      | .value text :: rest => (← (← p.take group).set needing text).read rest
      | _ => throw (.usage (.valueMissing needing))

/-- Read a command line. -/
def Options.parse (arguments : List String) : Except Stop Options := do
  let slots ← (slots arguments).mapError Stop.usage
  let p ← ({} : Progress).read slots
  match p.file with
  | none => throw (.usage .fileMissing)
  | some file =>
    if p.leftOver.isEmpty then return { p.settings with file }
    else throw (.usage (.unrecognized p.leftOver))

end Liveness.Command

/-
Liveness/Flow/Fragment.lean

Pieces of flow graphs.  A fragment is what is known of a statement or a block on
its own: where it is entered, the edges inside it, where it ends normally, and
the labels from which a jump leaves it.  Each statement form has an operation
that makes its fragment from the fragments of its parts.

A fragment without an entry is empty: nothing in it runs.
-/
import Liveness.Flow.Graph

namespace Liveness

/-- A piece of a flow graph. -/
structure Fragment where
  /-- Where the piece is entered. -/
  initial : Option Label := none
  /-- The labels after which the piece ends normally. -/
  finals : List Label := []
  /-- The edges inside the piece. -/
  flows : List Flow := []
  /-- The first `throw` that every run through the piece meets. -/
  throwAt : Option Label := none
  /-- The `break`s that leave the piece. -/
  breaks : List Label := []
  /-- The `continue`s that leave the piece. -/
  continues : List Label := []
  /-- The `throw`s that leave the piece, on some runs or on all. -/
  raises : List Label := []
  /-- Whether the piece can end normally. -/
  reachesExit : Bool := true
  /-- The statements of a block that may run, each by its offset and its entry. -/
  entries : List (Int × Label) := []
  deriving DecidableEq, Repr

namespace Fragment

/-- The fragment of nothing. -/
def empty : Fragment := {}

/-- Whether nothing runs in a fragment. -/
def isEmpty (f : Fragment) : Bool :=
  f.initial.isNone

/-- The labels after which a fragment ends normally, none if it cannot. -/
def exits (f : Fragment) : List Label :=
  if f.reachesExit then f.finals else []

/-! ### Simple statements -/

/-- A statement that runs and ends. -/
def step (label : Label) : Fragment :=
  { initial := some label, finals := [label] }

/-- A `throw`. -/
def throwing (label : Label) : Fragment :=
  { initial := some label, throwAt := some label, raises := [label], reachesExit := false }

/-- A `break`. -/
def breaking (label : Label) : Fragment :=
  { initial := some label, breaks := [label], reachesExit := false }

/-- A `continue`. -/
def continuing (label : Label) : Fragment :=
  { initial := some label, continues := [label], reachesExit := false }

/-! ### Sequences -/

/-- A block with one more statement, which starts at `offset`, after what can end normally. -/
def andThen (f : Fragment) (offset : Int) (next : Fragment) : Fragment :=
  match next.initial with
  | none => f
  | some entry =>
    { initial := f.initial.or (some entry)
      finals := next.exits
      flows := f.flows ++ f.finals.map (·, entry) ++ next.flows
      throwAt := f.throwAt.or next.throwAt
      breaks := f.breaks ++ next.breaks
      continues := f.continues ++ next.continues
      raises := f.raises ++ next.raises
      reachesExit := next.reachesExit
      entries := f.entries ++ [(offset, entry)] }

/-! ### Choices -/

/-- The labels after which a branch of a test ends normally: the test itself if nothing runs. -/
def branchExits (test : Label) (branch : Fragment) : List Label :=
  if branch.isEmpty then [test] else branch.exits

/-- A test with the branches that it may select.  Without an `else` in the text the test itself
may also be the last label. -/
def choice (test : Label) (withoutElse : Bool) (branches : List Fragment) : Fragment :=
  { initial := some test
    finals := unique (branches.flatMap (branchExits test) ++ if withoutElse then [test] else [])
    flows := branches.flatMap (fun b => b.initial.toList.map (test, ·)) ++
      branches.flatMap (·.flows)
    throwAt :=
      if !withoutElse && branches.all (·.throwAt.isSome) then
        branches.head?.bind (·.throwAt)
      else none
    breaks := branches.flatMap (·.breaks)
    continues := branches.flatMap (·.continues)
    raises := branches.flatMap (·.raises)
    reachesExit := withoutElse || branches.any fun b => b.isEmpty || b.reachesExit }

/-! ### Loops -/

/-- A loop whose body runs any number of times. -/
def loop (test : Label) (body : Fragment) : Fragment :=
  match body.initial with
  | none => { initial := some test, finals := [test], flows := [(test, test)] }
  | some entry =>
    { initial := some test
      finals := unique (test :: body.breaks)
      flows := (test, entry) :: body.flows ++
        (unique (body.exits ++ body.continues)).map (·, test)
      raises := body.raises }

/-! ### Guarded blocks -/

/-- The labels of a guarded block from which its handler may be entered: the entries up to the
first `throw` that every run meets, and every `throw` inside. -/
def sources (block : Fragment) : List Label :=
  let reached := block.entries.takeWhile fun (offset, _) =>
    match block.throwAt with
    | some label => offset ≤ label
    | none => true
  unique (reached.map (·.2) ++ block.raises)

/-- A block with its handler and what is run on the way out.  If nothing runs in the block, only
the last of them is there. -/
def guarded (block handler finalizer : Fragment) : Fragment :=
  match block.initial with
  | none => finalizer
  | some entry =>
    let sources := block.sources
    let handled :=
      match handler.initial with
      | none => []
      | some first => sources.map (·, first) ++ handler.flows
    let handlerExits := if handler.isEmpty then sources else handler.exits
    let exits := unique (block.exits ++ handlerExits)
    let rethrown := if block.throwAt.isSome then handler.throwAt else none
    let breaks := block.breaks ++ handler.breaks ++ finalizer.breaks
    let continues := block.continues ++ handler.continues ++ finalizer.continues
    match finalizer.initial with
    | none =>
      { initial := some entry
        finals := exits
        flows := block.flows ++ handled
        throwAt := rethrown
        breaks
        continues
        raises := handler.raises
        reachesExit := !exits.isEmpty }
    | some last =>
      let resumes := !exits.isEmpty && finalizer.reachesExit
      { initial := some entry
        finals := if resumes then finalizer.finals else []
        flows := block.flows ++ handled ++
          (unique (exits ++ handler.raises)).map (·, last) ++ finalizer.flows
        throwAt := if resumes then none else finalizer.throwAt.or rethrown
        breaks
        continues
        raises := unique (handler.raises ++ finalizer.raises)
        reachesExit := resumes }

end Fragment

end Liveness

/-
Liveness/Proofs/Reports.lean

What the builder notices, with the addresses of the parts it is noticed about.
An event names a part by its offset only, and two parts may have one offset; a
report adds the address of the part that is meant.  The events of the reports are
the events of the builder, in the same order (`Program.reports_events`), and at
the address of a report stands the part that its event names
(`Program.located_reports`).

The blocks of a statement are split into those that the builder goes into
(`Stmt.Enters`) and those that it drops (`Stmt.Drops`): a report about a
statement is about a dropped block, or it is a report about an entered one.
-/
import Liveness.Flow.Build
import Liveness.Proofs.Points
import Liveness.Syntax.Part

namespace Liveness

/-! ### Reports -/

/-- Something noticed about the part at an address. -/
structure Report where
  address : List Step
  event : Event

/-- Where a region stands in its statement. -/
def Region.step : Region → Step
  | .ifConsequent => .child "consequent"
  | .ifAlternate => .child "alternate"
  | .whileBody => .child "body"
  | .catchClause => .child "handler"

/-- Report a block that no run enters, if there is something in it. -/
def Report.drop (address : List Step) (region : Region) (block : Block) : List Report :=
  (Event.drop region block).map (⟨address ++ [region.step], ·⟩)

mutual
/-- What is reported about the statement at an address. -/
def Stmt.reports (address : List Step) : Stmt → List Report
  | .whileStmt _ test body =>
    if test.truth? = some false then Report.drop address .whileBody body
    else body.reports (address ++ [.child "body"])
  | .ifStmt _ test consequent none folded =>
    match Stmt.decided? folded test with
    | some false => Report.drop address .ifConsequent consequent
    | _ => consequent.reports (address ++ [.child "consequent"])
  | .ifStmt _ test consequent (some alternate) folded =>
    match Stmt.decided? folded test with
    | some true =>
      Report.drop address .ifAlternate alternate ++
        consequent.reports (address ++ [.child "consequent"])
    | some false =>
      Report.drop address .ifConsequent consequent ++
        alternate.reports (address ++ [.child "alternate"])
    | none =>
      consequent.reports (address ++ [.child "consequent"]) ++
        alternate.reports (address ++ [.child "alternate"])
  | .tryStmt _ block handler none _ =>
    block.reports (address ++ [.child "block"]) ++
      (if block.fragment.isEmpty then Report.drop address .catchClause handler
        else handler.reports (address ++ [.child "handler"]))
  | .tryStmt _ block handler (some finalizer) _ =>
    block.reports (address ++ [.child "block"]) ++
      (if block.fragment.isEmpty then Report.drop address .catchClause handler
        else handler.reports (address ++ [.child "handler"])) ++
      finalizer.reports (address ++ [.child "finalizer"])
  | .blockStmt block => block.reports address
  | .unsupported offset tag => [⟨address, .skipped tag offset⟩]
  | _ => []
/-- What is reported about the block at an address. -/
def Block.reports (address : List Step) : Block → List Report
  | ⟨_, body⟩ => Stmt.sequenceReports (address ++ [.child "body"]) 0 .empty body
/-- What is reported about the statements of a block from the one at place `i` on, if those before
it gave `f`. -/
def Stmt.sequenceReports (address : List Step) (i : Nat) (f : Fragment) : List Stmt → List Report
  | [] => []
  | s :: rest =>
    if f.reachesExit then
      s.reports (address ++ [.item i]) ++
        Stmt.sequenceReports address (i + 1) (f.andThen s.offset s.fragment) rest
    else
      ⟨address ++ [.item i], .unreachable s.kind s.offset⟩ ::
        Stmt.sequenceReports address (i + 1) f rest
end

/-- What is reported about a program. -/
def Program.reports (p : Program) : List Report :=
  p.block.reports []

/-! ### Reports and events -/

theorem Report.drop_events (address : List Step) (region : Region) (block : Block) :
    (Report.drop address region block).map (·.event) = Event.drop region block := by
  rw [Report.drop, List.map_map]
  exact List.map_id _

mutual
theorem Stmt.reports_events (address : List Step) :
    (s : Stmt) → (s.reports address).map (·.event) = s.events
  | .exprStmt .. => rfl
  | .declStmt .. => rfl
  | .throwStmt .. => rfl
  | .breakStmt .. => rfl
  | .continueStmt .. => rfl
  | .whileStmt _ test body => by
    rw [Stmt.reports, Stmt.events]
    split
    · exact Report.drop_events ..
    · exact Block.reports_events _ body
  | .ifStmt _ test consequent none folded => by
    have hc := fun address => Block.reports_events address consequent
    rw [Stmt.reports, Stmt.events]
    rcases Stmt.decided? folded test with - | - | - <;> simp only [Report.drop_events, hc]
  | .ifStmt _ test consequent (some alternate) folded => by
    have hc := fun address => Block.reports_events address consequent
    have ha := fun address => Block.reports_events address alternate
    rw [Stmt.reports, Stmt.events]
    rcases Stmt.decided? folded test with - | - | - <;>
      simp only [List.map_append, Report.drop_events, hc, ha]
  | .tryStmt _ block handler none _ => by
    have hb := fun address => Block.reports_events address block
    have hh := fun address => Block.reports_events address handler
    rw [Stmt.reports, Stmt.events]
    split <;> simp only [List.map_append, Report.drop_events, hb, hh]
  | .tryStmt _ block handler (some finalizer) _ => by
    have hb := fun address => Block.reports_events address block
    have hh := fun address => Block.reports_events address handler
    have hf := fun address => Block.reports_events address finalizer
    rw [Stmt.reports, Stmt.events]
    split <;> simp only [List.map_append, Report.drop_events, hb, hh, hf]
  | .blockStmt block => by
    rw [Stmt.reports, Stmt.events]
    exact Block.reports_events address block
  | .unsupported .. => rfl
theorem Block.reports_events (address : List Step) :
    (b : Block) → (b.reports address).map (·.event) = b.events
  | ⟨_, body⟩ => by
    rw [Block.reports, Block.events]
    exact Stmt.sequenceReports_events _ 0 .empty body
theorem Stmt.sequenceReports_events (address : List Step) (i : Nat) (f : Fragment) :
    (ss : List Stmt) →
    (Stmt.sequenceReports address i f ss).map (·.event) = Stmt.sequenceEvents f ss
  | [] => by rw [Stmt.sequenceReports, Stmt.sequenceEvents]; rfl
  | s :: rest => by
    rw [Stmt.sequenceReports, Stmt.sequenceEvents]
    split
    · rw [List.map_append, Stmt.reports_events _ s, Stmt.sequenceReports_events _ _ _ rest]
    · rw [List.map_cons, Stmt.sequenceReports_events _ _ _ rest]
end

/-- The events of the reports are what is noticed about a program. -/
theorem Program.reports_events (p : Program) : p.reports.map (·.event) = p.events :=
  Block.reports_events [] p.block

/-! ### Entered and dropped blocks -/

/-- The builder goes into the block at a place of a statement. -/
inductive Stmt.Enters : Stmt → Step → Block → Prop
  | whileBody {offset test body} :
      test.truth? ≠ some false → Enters (.whileStmt offset test body) (.child "body") body
  | consequent {offset test consequent alternate folded} :
      Stmt.decided? folded test ≠ some false →
      Enters (.ifStmt offset test consequent alternate folded) (.child "consequent") consequent
  | alternate {offset test consequent alternate folded} :
      Stmt.decided? folded test ≠ some true →
      Enters (.ifStmt offset test consequent (some alternate) folded) (.child "alternate") alternate
  | guarded {offset block handler finalizer param} :
      Enters (.tryStmt offset block handler finalizer param) (.child "block") block
  | handler {offset block handler finalizer param} :
      block.fragment.initial ≠ none →
      Enters (.tryStmt offset block handler finalizer param) (.child "handler") handler
  | finalizer {offset block handler finalizer param} :
      Enters (.tryStmt offset block handler (some finalizer) param) (.child "finalizer") finalizer

/-- The builder drops the block in a region of a statement. -/
inductive Stmt.Drops : Stmt → Region → Block → Prop
  | whileBody {offset test body} :
      test.truth? = some false → Drops (.whileStmt offset test body) .whileBody body
  | consequent {offset test consequent alternate folded} :
      Stmt.decided? folded test = some false →
      Drops (.ifStmt offset test consequent alternate folded) .ifConsequent consequent
  | alternate {offset test consequent alternate folded} :
      Stmt.decided? folded test = some true →
      Drops (.ifStmt offset test consequent (some alternate) folded) .ifAlternate alternate
  | handler {offset block handler finalizer param} :
      block.fragment.initial = none →
      Drops (.tryStmt offset block handler finalizer param) .catchClause handler

namespace Stmt

variable {s : Stmt} {x : Step} {region : Region} {b c : Block}

theorem Enters.mem_blocks (h : s.Enters x b) : b ∈ s.blocks := by
  cases h <;> simp [blocks]

/-- An entered block stands at its place. -/
theorem Enters.step? (h : s.Enters x b) : (Part.stmt s).step? x = some (.block b) := by
  cases h <;> rfl

theorem Enters.ofStmt (h : s.Enters x b) : Part.ofStmt s = .stmt s := by
  cases h <;> rfl

/-- A dropped block stands in its region. -/
theorem Drops.step? (h : s.Drops region b) :
    (Part.stmt s).step? region.step = some (.block b) := by
  cases h <;> rfl

theorem Drops.ofStmt (h : s.Drops region b) : Part.ofStmt s = .stmt s := by
  cases h <;> rfl

/-- At one place stands one block. -/
theorem Enters.unique (hb : s.Enters x b) (hc : s.Enters x c) : b = c := by
  have h := hb.step?.symm.trans hc.step?
  simpa using h

/-- A dropped block is not entered. -/
theorem Enters.ne_step (hb : s.Enters x b) (hd : s.Drops region c) : x ≠ region.step := by
  intro hx
  -- at the place of the region the two conditions exclude each other
  cases hd with
  | whileBody hd =>
    cases hb with
    | whileBody hb => exact hb hd
  | consequent hd =>
    cases hb with
    | consequent hb => exact hb hd
    | alternate => exact absurd hx (by decide)
  | alternate hd =>
    cases hb with
    | consequent => exact absurd hx (by decide)
    | alternate hb => exact hb hd
  | handler hd =>
    cases hb with
    | guarded => exact absurd hx (by decide)
    | handler hb => exact hb hd
    | finalizer => exact absurd hx (by decide)

end Stmt

/-! ### Where reports come from -/

theorem Report.mem_drop {address : List Step} {region : Region} {b : Block} {r : Report}
    (h : r ∈ Report.drop address region b) :
    b.body ≠ [] ∧ r = ⟨address ++ [region.step], .dead region b.offset⟩ := by
  rw [Report.drop, Event.drop] at h
  split at h
  next => cases h
  next hb =>
    refine ⟨fun hnil => hb ?_, List.mem_singleton.mp h⟩
    rw [Block.isEmpty, hnil]
    rfl

/-- Where a report about the statement at an address comes from. -/
inductive Stmt.Origin (s : Stmt) (address : List Step) (r : Report) : Prop
  /-- A block of the statement is dropped. -/
  | dropped {region b} : s.Drops region b → r ∈ Report.drop address region b → Origin s address r
  /-- A report about a block that is entered. -/
  | entered {x b} : s.Enters x b → r ∈ b.reports (address ++ [x]) → Origin s address r
  /-- Bare braces are the block between them. -/
  | braces {b} : s = .blockStmt b → r ∈ b.reports address → Origin s address r
  /-- The statement itself is skipped. -/
  | skipped {offset tag} : s = .unsupported offset tag → r = ⟨address, .skipped tag offset⟩ →
      Origin s address r

theorem Stmt.origin_handler {offset : Int} {block handler : Block} {finalizer : Option Block}
    {param : Json} {address : List Step} {r : Report}
    (h : r ∈ if block.fragment.isEmpty then Report.drop address .catchClause handler
      else handler.reports (address ++ [.child "handler"])) :
    Origin (.tryStmt offset block handler finalizer param) address r := by
  split at h
  next hb => exact .dropped (.handler (Fragment.isEmpty_iff.mp hb)) h
  next hb => exact .entered (.handler fun hi => hb (Fragment.isEmpty_iff.mpr hi)) h

theorem Stmt.origin {s : Stmt} {address : List Step} {r : Report} (h : r ∈ s.reports address) :
    s.Origin address r := by
  rcases s with _ | _ | ⟨offset, test, body⟩ | ⟨offset, test, consequent, _ | alternate, folded⟩ |
    _ | _ | _ | ⟨offset, block, handler, _ | finalizer, param⟩ | b | ⟨offset, tag⟩
  case whileStmt =>
    rw [Stmt.reports] at h
    split at h
    next ht => exact .dropped (.whileBody ht) h
    next ht => exact .entered (.whileBody ht) h
  case ifStmt.none =>
    rw [Stmt.reports] at h
    split at h
    next hd => exact .dropped (.consequent hd) h
    next hd => exact .entered (.consequent hd) h
  case ifStmt.some =>
    rw [Stmt.reports] at h
    split at h
    next hd =>
      rcases List.mem_append.mp h with h | h
      · exact .dropped (.alternate hd) h
      · exact .entered (.consequent (by rw [hd]; decide)) h
    next hd =>
      rcases List.mem_append.mp h with h | h
      · exact .dropped (.consequent hd) h
      · exact .entered (.alternate (by rw [hd]; decide)) h
    next hd =>
      rcases List.mem_append.mp h with h | h
      · exact .entered (.consequent (by rw [hd]; decide)) h
      · exact .entered (.alternate (by rw [hd]; decide)) h
  case tryStmt.none =>
    rw [Stmt.reports] at h
    rcases List.mem_append.mp h with h | h
    · exact .entered .guarded h
    · exact Stmt.origin_handler h
  case tryStmt.some =>
    rw [Stmt.reports] at h
    rcases List.mem_append.mp h with h | h
    · rcases List.mem_append.mp h with h | h
      · exact .entered .guarded h
      · exact Stmt.origin_handler h
    · exact .entered .finalizer h
  case blockStmt =>
    rw [Stmt.reports] at h
    exact .braces rfl h
  case unsupported => exact .skipped rfl (List.mem_singleton.mp h)
  all_goals cases h

/-- A report about the statements of a block is about one of them, or says that it is unreachable. -/
theorem Stmt.mem_sequenceReports {ss : List Stmt} {address : List Step} {i : Nat} {f : Fragment}
    {r : Report} (h : r ∈ Stmt.sequenceReports address i f ss) :
    ∃ j s, ss[j]? = some s ∧ (r ∈ s.reports (address ++ [.item (i + j)]) ∨
      r = ⟨address ++ [.item (i + j)], .unreachable s.kind s.offset⟩) := by
  induction ss generalizing i f with
  | nil => cases h
  | cons s rest ih =>
    have hlater : ∀ {g : Fragment}, r ∈ Stmt.sequenceReports address (i + 1) g rest →
        ∃ j s', (s :: rest)[j]? = some s' ∧ (r ∈ s'.reports (address ++ [.item (i + j)]) ∨
          r = ⟨address ++ [.item (i + j)], .unreachable s'.kind s'.offset⟩) := by
      intro g hg
      obtain ⟨j, s', hs, hr⟩ := ih hg
      rw [Nat.add_right_comm] at hr
      exact ⟨j + 1, s', hs, hr⟩
    rw [Stmt.sequenceReports] at h
    split at h
    · rcases List.mem_append.mp h with h | h
      · exact ⟨0, s, rfl, Or.inl h⟩
      · exact hlater h
    · rcases List.mem_cons.mp h with h | h
      · exact ⟨0, s, rfl, Or.inr h⟩
      · exact hlater h

/-! ### Induction over statements and blocks -/

section Induction

variable {P : Stmt → Prop} {Q : Block → Prop}

mutual
theorem Stmt.of_blocks (hs : ∀ s : Stmt, (∀ b ∈ s.blocks, Q b) → P s)
    (hb : ∀ b : Block, (∀ s ∈ b.body, P s) → Q b) : (s : Stmt) → P s
  | .exprStmt .. => hs _ nofun
  | .declStmt .. => hs _ nofun
  | .throwStmt .. => hs _ nofun
  | .breakStmt .. => hs _ nofun
  | .continueStmt .. => hs _ nofun
  | .unsupported .. => hs _ nofun
  | .whileStmt _ _ body => hs _ (by simpa [Stmt.blocks] using Block.of_body hs hb body)
  | .ifStmt _ _ consequent none _ => hs _ (by simpa [Stmt.blocks] using Block.of_body hs hb consequent)
  | .ifStmt _ _ consequent (some alternate) _ => hs _ (by
      simpa [Stmt.blocks] using ⟨Block.of_body hs hb consequent, Block.of_body hs hb alternate⟩)
  | .tryStmt _ block handler none _ => hs _ (by
      simpa [Stmt.blocks] using ⟨Block.of_body hs hb block, Block.of_body hs hb handler⟩)
  | .tryStmt _ block handler (some finalizer) _ => hs _ (by
      simpa [Stmt.blocks] using ⟨Block.of_body hs hb block, Block.of_body hs hb handler,
        Block.of_body hs hb finalizer⟩)
  | .blockStmt block => hs _ (by simpa [Stmt.blocks] using Block.of_body hs hb block)
theorem Block.of_body (hs : ∀ s : Stmt, (∀ b ∈ s.blocks, Q b) → P s)
    (hb : ∀ b : Block, (∀ s ∈ b.body, P s) → Q b) : (b : Block) → Q b
  | ⟨_, body⟩ => hb _ (Stmt.all_of_blocks hs hb body)
theorem Stmt.all_of_blocks (hs : ∀ s : Stmt, (∀ b ∈ s.blocks, Q b) → P s)
    (hb : ∀ b : Block, (∀ s ∈ b.body, P s) → Q b) : (ss : List Stmt) → ∀ s ∈ ss, P s
  | [] => nofun
  | s :: rest => by
    intro r hr
    rcases List.mem_cons.mp hr with hr | hr
    · rw [hr]
      exact Stmt.of_blocks hs hb s
    · exact Stmt.all_of_blocks hs hb rest r hr
end

end Induction

/-! ### Addresses of reports -/

theorem prefix_of_snoc {address more : List Step} {x : Step}
    (h : address ++ [x] <+: more) : address <+: more :=
  (List.prefix_append address [x]).trans h

/-- Below two different places of one part nothing is common. -/
theorem eq_of_snoc_prefixes {address more : List Step} {x y : Step} (hx : address ++ [x] <+: more)
    (hy : address ++ [y] <+: more) : x = y := by
  have h : address ++ [x] = address ++ [y] :=
    (List.prefix_of_prefix_length_le hx hy (by simp)).eq_of_length (by simp)
  simpa using h

theorem not_snoc_prefix_self {address : List Step} {x : Step} : ¬ address ++ [x] <+: address := by
  intro h
  have hlength := h.length_le
  rw [List.length_append, List.length_singleton] at hlength
  omega

/-- A report about a statement is about something inside it. -/
theorem Stmt.prefix_of_mem_reports {s : Stmt} {address : List Step} {r : Report}
    (h : r ∈ s.reports address) : address <+: r.address := by
  refine Stmt.of_blocks (P := fun s => ∀ address, r ∈ s.reports address → address <+: r.address)
    (Q := fun b => ∀ address, r ∈ b.reports address → address <+: r.address)
    ?_ ?_ s address h
  · intro s ih address h
    cases Stmt.origin h with
    | dropped _ hr =>
      rw [(Report.mem_drop hr).2]
      exact List.prefix_append _ _
    | entered he hr => exact prefix_of_snoc (ih _ he.mem_blocks _ hr)
    | @braces b hs hr => exact ih b (by rw [hs]; exact List.mem_singleton_self b) address hr
    | skipped _ hskip =>
      subst hskip
      exact List.prefix_refl _
  · intro b ih address h
    obtain ⟨offset, body⟩ := b
    rw [Block.reports] at h
    obtain ⟨j, s, hs, hr | hr⟩ := Stmt.mem_sequenceReports h
    · exact prefix_of_snoc (prefix_of_snoc (ih s (List.mem_of_getElem? hs) _ hr))
    · rw [hr]
      exact prefix_of_snoc (List.prefix_append _ _)

theorem Stmt.prefix_of_mem_sequenceReports {ss : List Stmt} {address : List Step} {i : Nat}
    {f : Fragment} {r : Report} (h : r ∈ Stmt.sequenceReports address i f ss) :
    ∃ j, address ++ [.item (i + j)] <+: r.address := by
  obtain ⟨j, s, -, hr | hr⟩ := Stmt.mem_sequenceReports h
  · exact ⟨j, Stmt.prefix_of_mem_reports hr⟩
  · subst hr
    exact ⟨j, List.prefix_refl _⟩

theorem Block.prefix_of_mem_reports {b : Block} {address : List Step} {r : Report}
    (h : r ∈ b.reports address) : address <+: r.address := by
  obtain ⟨offset, body⟩ := b
  rw [Block.reports] at h
  obtain ⟨j, hj⟩ := Stmt.prefix_of_mem_sequenceReports h
  exact prefix_of_snoc (prefix_of_snoc hj)

/-! ### Parts that reports are about -/

theorem Part.at?_snoc (part : Part) (address : List Step) (x : Step) :
    part.at? (address ++ [x]) = (part.at? address).bind (·.step? x) := by
  simp only [Part.at?, List.foldlM_append, List.foldlM_cons, List.foldlM_nil, bind_pure]
  rfl

/-- At the address of a report stands the part that its event names. -/
def Report.Located (p : Program) (r : Report) : Prop :=
  match r.event with
  | .unreachable kind offset => ∃ s, (Part.program p).at? r.address = some (.ofStmt s) ∧
      s.kind = kind ∧ s.offset = offset
  | .dead region offset => ∃ address s b, r.address = address ++ [region.step] ∧
      (Part.program p).at? address = some (.stmt s) ∧
      (Part.program p).at? r.address = some (.block b) ∧ b.body ≠ [] ∧ b.offset = offset
  | .skipped tag offset =>
      (Part.program p).at? r.address = some (.stmt (.unsupported offset tag))

section Located

variable {p : Program} {address : List Step} {s : Stmt} {b : Block} {x : Step} {i : Nat}

/-- An entered block stands at its place, with its statements. -/
theorem Stmt.Enters.at?_body (he : s.Enters x b)
    (h : (Part.program p).at? address = some (.ofStmt s)) :
    (Part.program p).at? (address ++ [x] ++ [.child "body"]) = some (Part.ofBody b.body) := by
  rw [Part.at?_snoc, Part.at?_snoc, h, he.ofStmt, Option.bind_some, he.step?]
  rfl

theorem Stmt.at?_item {body : List Stmt}
    (h : (Part.program p).at? address = some (Part.ofBody body)) (hs : body[i]? = some s) :
    (Part.program p).at? (address ++ [.item i]) = some (.ofStmt s) := by
  rw [Part.at?_snoc, h, Option.bind_some]
  simp [Part.step?, Part.ofBody, hs]

theorem Block.located_of_body {r : Report}
    (hbody : ∀ s ∈ b.body, ∀ address, (Part.program p).at? address = some (.ofStmt s) →
      r ∈ s.reports address → r.Located p)
    (h : (Part.program p).at? (address ++ [.child "body"]) = some (Part.ofBody b.body))
    (hr : r ∈ b.reports address) : r.Located p := by
  obtain ⟨offset, body⟩ := b
  rw [Block.reports] at hr
  obtain ⟨j, s, hs, hr⟩ := Stmt.mem_sequenceReports hr
  rw [Nat.zero_add] at hr
  have hat := Stmt.at?_item h hs
  rcases hr with hr | hr
  · exact hbody s (List.mem_of_getElem? hs) _ hat hr
  · rw [hr]
    exact ⟨s, hat, rfl, rfl⟩

theorem Stmt.located_reports {r : Report} (h : (Part.program p).at? address = some (.ofStmt s))
    (hr : r ∈ s.reports address) : r.Located p := by
  refine Stmt.of_blocks
    (P := fun s => ∀ address, (Part.program p).at? address = some (.ofStmt s) →
      r ∈ s.reports address → r.Located p)
    (Q := fun b => ∀ address,
      (Part.program p).at? (address ++ [.child "body"]) = some (Part.ofBody b.body) →
      r ∈ b.reports address → r.Located p) ?_ ?_ s address h hr
  · intro s ih address h hr
    cases Stmt.origin hr with
    | @dropped region b hd hr =>
      obtain ⟨hne, rfl⟩ := Report.mem_drop hr
      rw [hd.ofStmt] at h
      refine ⟨address, s, b, rfl, h, ?_, hne, rfl⟩
      rw [Part.at?_snoc, h, Option.bind_some, hd.step?]
    | entered he hr => exact ih _ he.mem_blocks _ (he.at?_body h) hr
    | @braces b hs hr =>
      -- a bare block is its own part, so its body is one step below the same address
      subst hs
      refine ih b (List.mem_singleton_self b) address ?_ hr
      rw [Part.at?_snoc, h]
      rfl
    | skipped hs hskip =>
      subst hs
      rw [hskip]
      exact h
  · intro b ih address h hr
    exact Block.located_of_body ih h hr

end Located

/-- Every report about a program is about a part of it. -/
theorem Program.located_reports (p : Program) : ∀ r ∈ p.reports, r.Located p := by
  intro r hr
  exact Block.located_of_body (fun s _ address => Stmt.located_reports) rfl hr

end Liveness

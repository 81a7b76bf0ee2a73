/-
Liveness/Proofs/Coverage.lean

No statement is lost and none is counted twice.  Each point of a program whose
labels are distinct is a label of the flow graph, and then it is reached from the
entry, or it stands inside exactly one part that is reported; and the graph has no
other labels.

The points of a program are those that the builder comes to together with those
inside the parts it reports, each as often as it occurs (`Program.count_points`),
and the labels of the graph are those that the builder comes to
(`Program.mem_graph_labels`).
-/
import Liveness.Proofs.Reach
import Liveness.Syntax.Labels

namespace Liveness

/-! ### Points inside reported parts -/

/-- The labels of the program points inside a part. -/
def Part.points : Part → List Label
  | .program p => p.block.points
  | .block b => b.points
  | .stmt s => s.points
  | .declarator _ | .expr _ | .list _ => []

/-- The labels of the program points inside the part that a report is about. -/
def Report.inside (p : Program) (r : Report) : List Label :=
  ((Part.program p).at? r.address).elim [] Part.points

theorem Part.points_ofStmt (s : Stmt) : (Part.ofStmt s).points = s.points := by
  cases s with
  | blockStmt b =>
    show b.points = (Stmt.blockStmt b :: (Stmt.blockStmt b).nested).filterMap Stmt.point?
    rw [Stmt.nested, List.filterMap_cons_none rfl]
    rfl
  | _ => rfl

/-- A report with a point inside gives rise to a finding. -/
theorem Report.Located.finding_ne_none {p : Program} {r : Report} (h : r.Located p) {l : Label}
    (hl : l ∈ r.inside p) : r.event.finding? ≠ none := by
  rcases r with ⟨address, ⟨kind, offset⟩ | ⟨region, offset⟩ | ⟨tag, offset⟩⟩
  · exact Option.some_ne_none _
  · exact Option.some_ne_none _
  · -- a statement that is skipped has no points
    have hat : (Part.program p).at? address = some (.stmt (.unsupported offset tag)) := h
    rw [Report.inside, hat] at hl
    cases hl

section Partition

variable {p : Program} {address : List Step} {s : Stmt} {b : Block} {l : Label}

theorem Report.inside_of_at? {part : Part} {event : Event}
    (h : (Part.program p).at? address = some part) :
    Report.inside p ⟨address, event⟩ = part.points := by
  rw [Report.inside, h]
  rfl

/-- The points inside a block that is dropped. -/
theorem Stmt.Drops.inside {region : Region} (hd : s.Drops region b)
    (hat : (Part.program p).at? address = some (.ofStmt s)) :
    (Report.drop address region b).flatMap (·.inside p) = b.points := by
  rw [Report.drop, Event.drop]
  split
  next hempty =>
    obtain ⟨offset, body⟩ := b
    obtain rfl : body = [] := List.isEmpty_iff.mp hempty
    rfl
  next =>
    have hblock : (Part.program p).at? (address ++ [region.step]) = some (.block b) := by
      rw [Part.at?_snoc, hat, hd.ofStmt, Option.bind_some, hd.step?]
    show Report.inside p ⟨address ++ [region.step], .dead region b.offset⟩ ++ [] = b.points
    rw [Report.inside_of_at? hblock, List.append_nil]
    rfl

theorem Stmt.count_handler {offset : Int} {block handler : Block} {finalizer : Option Block}
    {param : Json}
    (hentered : ∀ {x b}, (Stmt.tryStmt offset block handler finalizer param).Enters x b →
      b.points.count l =
        b.built.count l + ((b.reports (address ++ [x])).flatMap (·.inside p)).count l)
    (hdropped : ∀ {region b}, (Stmt.tryStmt offset block handler finalizer param).Drops region b →
      (Report.drop address region b).flatMap (·.inside p) = b.points) :
    handler.points.count l =
      (if block.fragment.isEmpty then [] else handler.built).count l +
        ((if block.fragment.isEmpty then Report.drop address .catchClause handler
          else handler.reports (address ++ [.child "handler"])).flatMap (·.inside p)).count l := by
  split
  next hb =>
    rw [hdropped (.handler (Fragment.isEmpty_iff.mp hb)), List.count_nil, Nat.zero_add]
  next hb => exact hentered (.handler fun hi => hb (Fragment.isEmpty_iff.mpr hi))

/-- A point inside a statement is one that the builder comes to or stands inside a part that is
reported, and it is counted once. -/
theorem Stmt.count_points_of_blocks (s : Stmt)
    (ih : ∀ b ∈ s.blocks, ∀ address,
      (Part.program p).at? (address ++ [.child "body"]) = some (Part.ofBody b.body) →
      b.points.count l = b.built.count l + ((b.reports address).flatMap (·.inside p)).count l)
    (address : List Step) (hat : (Part.program p).at? address = some (.ofStmt s)) :
    s.points.count l = s.built.count l + ((s.reports address).flatMap (·.inside p)).count l := by
  have hentered : ∀ {x b}, s.Enters x b → b.points.count l =
      b.built.count l + ((b.reports (address ++ [x])).flatMap (·.inside p)).count l :=
    fun he => ih _ he.mem_blocks _ (he.at?_body hat)
  have hdropped : ∀ {region b}, s.Drops region b →
      (Report.drop address region b).flatMap (·.inside p) = b.points := fun hd => hd.inside hat
  rcases s with _ | _ | ⟨offset, test, body⟩ | ⟨offset, test, consequent, _ | alternate, folded⟩ |
    _ | _ | _ | ⟨offset, block, handler, _ | finalizer, param⟩ | b | ⟨offset, tag⟩
  case whileStmt =>
    show (test.offset :: body.points).count l = _
    rw [Stmt.built, Stmt.reports]
    by_cases ht : test.truth? = some false
    · rw [if_pos ht, if_pos ht, hdropped (.whileBody ht), List.count_cons, List.count_cons,
        List.count_nil]
      omega
    · rw [if_neg ht, if_neg ht, List.count_cons, List.count_cons, hentered (.whileBody ht)]
      omega
  case ifStmt.none =>
    show (test.offset :: consequent.points).count l = _
    rw [Stmt.built, Stmt.reports]
    by_cases hd : Stmt.decided? folded test = some false
    · rw [if_pos hd, hd]
      simp only [hdropped (.consequent hd), List.count_cons, List.count_nil]
      omega
    · rw [if_neg hd]
      split
      next hf => exact absurd hf hd
      next =>
        rw [List.count_cons, List.count_cons, hentered (.consequent hd)]
        omega
  case ifStmt.some =>
    have hpoints : (Stmt.ifStmt offset test consequent (some alternate) folded).points =
        test.offset :: (consequent.points ++ alternate.points) :=
      congrArg _ List.filterMap_append
    rw [hpoints, Stmt.built, Stmt.reports]
    rcases hd : Stmt.decided? folded test with - | - | -
    · have hc := hentered (.consequent (by rw [hd]; decide))
      have ha := hentered (.alternate (by rw [hd]; decide))
      simp only [reduceCtorEq, if_false, List.flatMap_append, List.count_cons, List.count_append]
      omega
    · have hc := hdropped (.consequent hd)
      have ha := hentered (.alternate (by rw [hd]; decide))
      simp only [Option.some.injEq, Bool.false_eq_true, if_true, if_false, List.nil_append,
        List.flatMap_append, List.count_cons, List.count_append, hc]
      omega
    · have hc := hentered (.consequent (by rw [hd]; decide))
      have ha := hdropped (.alternate hd)
      simp only [Option.some.injEq, Bool.true_eq_false, if_true, if_false, List.append_nil,
        List.flatMap_append, List.count_cons, List.count_append, ha]
      omega
  case tryStmt.none =>
    have hpoints : (Stmt.tryStmt offset block handler none param).points =
        block.points ++ handler.points := List.filterMap_append
    have hb := hentered .guarded
    have hh := Stmt.count_handler hentered hdropped
    rw [hpoints, Stmt.built, Stmt.reports, List.flatMap_append, List.count_append,
      List.count_append, List.count_append]
    omega
  case tryStmt.some =>
    have hpoints : (Stmt.tryStmt offset block handler (some finalizer) param).points =
        block.points ++ (handler.points ++ finalizer.points) := by
      show (block.statements ++ (handler.statements ++ finalizer.statements)).filterMap _ = _
      rw [List.filterMap_append, List.filterMap_append]
      rfl
    have hb := hentered .guarded
    have hh := Stmt.count_handler hentered hdropped
    have hf := hentered .finalizer
    rw [hpoints, Stmt.built, Stmt.reports, List.flatMap_append, List.flatMap_append]
    simp only [List.count_append]
    omega
  case blockStmt =>
    rw [Stmt.built, Stmt.reports]
    show b.points.count l = _
    refine ih b (List.mem_singleton_self b) address ?_
    rw [Part.at?_snoc, hat]
    rfl
  case unsupported =>
    show 0 = 0 + (Report.inside p ⟨address, .skipped tag offset⟩ ++ []).count l
    rw [Report.inside_of_at? hat]
    rfl
  all_goals rfl

theorem Stmt.count_points_sequence {ss body : List Stmt} {i : Nat} {f : Fragment}
    (hat : (Part.program p).at? address = some (Part.ofBody body)) (hss : body.drop i = ss)
    (ih : ∀ s ∈ ss, ∀ address, (Part.program p).at? address = some (.ofStmt s) →
      s.points.count l = s.built.count l + ((s.reports address).flatMap (·.inside p)).count l) :
    ((Stmt.flatten ss).filterMap Stmt.point?).count l = (Stmt.builtFrom f ss).count l +
      ((Stmt.sequenceReports address i f ss).flatMap (·.inside p)).count l := by
  induction ss generalizing i f with
  | nil =>
    rw [Stmt.flatten, Stmt.builtFrom, Stmt.sequenceReports]
    rfl
  | cons s rest ihrest =>
    have hs : body[i]? = some s := by
      rw [← List.head?_drop, hss]
      rfl
    have hrest : body.drop (i + 1) = rest := by
      rw [← List.tail_drop, hss]
      rfl
    have hitem := Stmt.at?_item hat hs
    have hlater := fun f => ihrest (f := f) hrest fun r hr => ih r (List.mem_cons_of_mem s hr)
    rw [Stmt.points_flatten_cons, Stmt.builtFrom, Stmt.sequenceReports, List.count_append]
    split
    next =>
      have hs := ih s List.mem_cons_self _ hitem
      rw [List.flatMap_append, List.count_append, List.count_append, hs,
        hlater (f.andThen s.offset s.fragment)]
      omega
    next hr =>
      -- nothing after this statement is built either, and each is reported on its own
      rw [List.flatMap_cons, List.count_append, Report.inside_of_at? hitem, Part.points_ofStmt,
        hlater f, Stmt.builtFrom_of_not_reachesExit rest hr, List.count_nil]
      omega

theorem Block.count_points_of_body (b : Block)
    (ih : ∀ s ∈ b.body, ∀ address, (Part.program p).at? address = some (.ofStmt s) →
      s.points.count l = s.built.count l + ((s.reports address).flatMap (·.inside p)).count l)
    (address : List Step)
    (hat : (Part.program p).at? (address ++ [.child "body"]) = some (Part.ofBody b.body)) :
    b.points.count l = b.built.count l + ((b.reports address).flatMap (·.inside p)).count l := by
  obtain ⟨offset, body⟩ := b
  rw [Block.points, Block.statements, Block.built, Block.reports]
  exact Stmt.count_points_sequence hat rfl ih

/-- The points of a program are those that the builder comes to and those inside the parts that
are reported, each as often as it occurs. -/
theorem Program.count_points (p : Program) (l : Label) :
    p.block.points.count l =
      p.block.built.count l + (p.reports.flatMap (·.inside p)).count l :=
  Block.of_body Stmt.count_points_of_blocks Block.count_points_of_body p.block [] rfl

end Partition

/-- A point is one that the builder comes to, or it stands inside a part with a finding. -/
theorem Program.built_or_reported (p : Program) {l : Label} (hl : l ∈ p.block.points) :
    l ∈ p.block.built ∨ ∃ r ∈ p.reports, r.event.finding? ≠ none ∧ l ∈ r.inside p := by
  have hcount : 0 < p.block.points.count l := List.count_pos_iff.mpr hl
  rw [p.count_points, Nat.add_pos_iff_pos_or_pos, List.count_pos_iff, List.count_pos_iff] at hcount
  rcases hcount with hbuilt | hinside
  · exact Or.inl hbuilt
  · obtain ⟨r, hr, hinside⟩ := List.mem_flatMap.mp hinside
    exact Or.inr ⟨r, hr, (p.located_reports r hr).finding_ne_none hinside, hinside⟩

/-! ### Distinct labels -/

theorem Stmt.nodup_points_of_labelsFrom {ss : List Stmt} {seen labels : List (Label × Json)}
    (h : Stmt.labelsFrom seen ss = .ok labels) (hseen : (seen.map (·.1)).Nodup) :
    (seen.map (·.1) ++ ss.filterMap Stmt.point?).Nodup := by
  induction ss generalizing seen with
  | nil =>
    rw [List.filterMap_nil, List.append_nil]
    exact hseen
  | cons s rest ih =>
    rw [Stmt.labelsFrom] at h
    split at h
    next hpoint =>
      rw [List.filterMap_cons_none hpoint]
      exact ih h hseen
    next l hpoint =>
      split at h
      next => cases h
      next hfree =>
        have hnew : l ∉ seen.map (·.1) := by
          intro hl
          obtain ⟨row, hrow, rfl⟩ := List.mem_map.mp hl
          simpa using List.lookup_eq_none_iff.mp hfree row hrow
        have hmore : ((seen ++ [(l, s.pointKind)]).map (·.1)).Nodup := by
          rw [List.map_append]
          exact (List.perm_append_singleton l _).nodup_iff.mpr (List.nodup_cons.mpr ⟨hnew, hseen⟩)
        have hrest := ih h hmore
        rw [List.map_append, List.append_assoc] at hrest
        rw [List.filterMap_cons_some hpoint]
        exact hrest

/-- The points of a program whose labels are accepted are distinct. -/
theorem Program.nodup_points {p : Program} {labels : List (Label × Json)}
    (h : p.labels = .ok labels) : p.block.points.Nodup :=
  Stmt.nodup_points_of_labelsFrom h List.nodup_nil

/-! ### Coverage -/

/-- A label stands inside no more reported parts than the times it is counted there. -/
theorem length_filter_inside_le (p : Program) (l : Label) (rs : List Report) :
    (rs.filter fun r => l ∈ r.inside p).length ≤ (rs.flatMap (·.inside p)).count l := by
  induction rs with
  | nil => exact Nat.le_refl 0
  | cons r rest ih =>
    rw [List.flatMap_cons, List.count_append]
    by_cases hl : l ∈ r.inside p
    · rw [List.filter_cons_of_pos (by simpa using hl), List.length_cons]
      have := List.count_pos_iff.mpr hl
      omega
    · rw [List.filter_cons_of_neg (by simpa using hl)]
      omega

/-- The labels of the flow graph are the points that the builder comes to. -/
theorem Program.mem_graph_labels {p : Program} (h : ∀ s ∈ p.statements, s.Unjumped) (l : Label) :
    l ∈ p.graph.labels ↔ l ∈ p.block.built := by
  constructor
  · intro hl
    have hw := p.block.within_built
    rw [FlowGraph.labels, mem_unique] at hl
    rcases List.mem_append.mp hl with hl | hl
    · rcases List.mem_append.mp hl with hl | hl
      · exact hw.initial l (Option.mem_toList.mp hl)
      · obtain ⟨e, he, hl⟩ := List.mem_flatMap.mp hl
        have hends := hw.flows e he
        rcases List.mem_cons.mp hl with rfl | hl
        · exact hends.1
        · exact List.mem_singleton.mp hl ▸ hends.2
    · exact hw.finals hl
  · intro hl
    -- a path that reaches the label begins at the entry and goes on by edges
    obtain ⟨entry, passed, hentry, hpath⟩ := Block.reaches_built h l hl
    have hmem : entry ∈ p.graph.labels := by
      rw [FlowGraph.labels, mem_unique, List.mem_append, List.mem_append]
      exact Or.inl (Or.inl (Option.mem_toList.mpr hentry))
    exact hpath.mem_labels (g := p.graph) hmem

/-- **No statement is lost, and none is counted twice.**  Let the labels of a program be distinct,
and let no `break` or `continue` stand in code with something to run on the way out.  Then every
program point is a label of the flow graph that a path reaches from the entry, and stands inside no
part that is reported; or it is no label of the graph and stands inside exactly one such part, for
which there is a finding.  Every label of the graph is a program point. -/
theorem Program.points_covered_once (p : Program) (labels : List (Label × Json))
    (hlabels : p.labels = .ok labels) (hjumps : ∀ s ∈ p.statements, s.Unjumped) :
    p.reports.map (·.event) = p.events ∧ (∀ r ∈ p.reports, r.Located p) ∧
    (∀ s ∈ p.statements, ∀ l, s.point? = some l →
      (l ∈ p.graph.labels ∧
        (∃ entry passed, p.graph.initial = some entry ∧ FlowPath p.graph.flows entry passed l) ∧
        p.reports.filter (fun r => l ∈ r.inside p) = []) ∨
      (l ∉ p.graph.labels ∧
        ∃ r, p.reports.filter (fun r => l ∈ r.inside p) = [r] ∧ r.event.finding? ≠ none)) ∧
    ∀ l ∈ p.graph.labels, ∃ s ∈ p.statements, s.point? = some l := by
  refine ⟨p.reports_events, p.located_reports, ?_, ?_⟩
  · intro s hs l hl
    have hpoint : l ∈ p.block.points := List.mem_filterMap.mpr ⟨s, hs, hl⟩
    have hone : p.block.points.count l = 1 := by
      rw [(Program.nodup_points hlabels).count, if_pos hpoint]
    rw [p.count_points] at hone
    have hfew := length_filter_inside_le p l p.reports
    rw [Program.mem_graph_labels hjumps]
    by_cases hbuilt : l ∈ p.block.built
    · refine Or.inl ⟨hbuilt, Block.reaches_built hjumps l hbuilt, ?_⟩
      have := List.count_pos_iff.mpr hbuilt
      exact List.eq_nil_of_length_eq_zero (by omega)
    · refine Or.inr ⟨hbuilt, ?_⟩
      -- the label stands inside some part, and it is counted inside one only
      obtain ⟨r, hr, hfinding, hinside⟩ := (p.built_or_reported hpoint).resolve_left hbuilt
      have hmem : r ∈ p.reports.filter fun r => l ∈ r.inside p :=
        List.mem_filter.mpr ⟨hr, by simpa using hinside⟩
      have hlength : (p.reports.filter fun r => l ∈ r.inside p).length = 1 := by
        have := List.length_pos_of_mem hmem
        omega
      obtain ⟨r', hr'⟩ := List.length_eq_one_iff.mp hlength
      rw [hr'] at hmem
      obtain rfl := List.mem_singleton.mp hmem
      exact ⟨r, hr', hfinding⟩
  · intro l hl
    rw [Program.mem_graph_labels hjumps] at hl
    have hpoint : 0 < p.block.points.count l := by
      have := List.count_pos_iff.mpr hl
      rw [p.count_points]
      omega
    exact List.mem_filterMap.mp (List.count_pos_iff.mp hpoint)

/-- `while (more) { try { throw e; lost(); } catch (e) { warn(); }
finally { log(); break; late(); } } if (null) { never(); } else { done(); }` -/
def forsaking : Program where
  offset := 0
  body :=
    [.whileStmt 0 (.identifier 7 "more") ⟨13,
      [.tryStmt 15
        ⟨19, [.throwStmt 21 (some (.identifier 27 "e")),
          .exprStmt 30 (.call 30 (.identifier 30 "lost") [])]⟩
        ⟨50, [.exprStmt 52 (.call 52 (.identifier 52 "warn") [])]⟩
        (some ⟨70, [.exprStmt 72 (.call 72 (.identifier 72 "log") []), .breakStmt 79 .null,
          .exprStmt 86 (.call 86 (.identifier 86 "late") [])]⟩) (.str "e")]⟩,
    .ifStmt 98 (.literal 102 .null (.str "null"))
      ⟨108, [.exprStmt 110 (.call 110 (.identifier 110 "never") [])]⟩
      (some ⟨126, [.exprStmt 128 (.call 128 (.identifier 128 "done") [])]⟩) false]

/-- Three calls stand inside one reported part each, and the other points are reached. -/
theorem forsaking_covered_once :
    (forsaking.labels.map fun labels => labels.map (·.1)) =
      .ok [7, 21, 30, 52, 72, 79, 86, 102, 110, 128] ∧
    (∀ s ∈ forsaking.statements, s.Unjumped) ∧
    (∀ l ∈ [7, 21, 52, 72, 79, 102, 128], l ∈ forsaking.graph.labels ∧
      ∃ entry passed, forsaking.graph.initial = some entry ∧
        FlowPath forsaking.graph.flows entry passed l) ∧
    ∀ l ∈ [30, 86, 110], l ∉ forsaking.graph.labels ∧
      ∃ r, forsaking.reports.filter (fun r => l ∈ r.inside forsaking) = [r] ∧
        r.event.finding? ≠ none := by
  have hlabels : forsaking.labels = .ok [(7, .str "Identifier"), (21, .str "ThrowStatement"),
      (30, .str "ExpressionStatement"), (52, .str "ExpressionStatement"),
      (72, .str "ExpressionStatement"), (79, .str "BreakStatement"),
      (86, .str "ExpressionStatement"), (102, .str "Literal"), (110, .str "ExpressionStatement"),
      (128, .str "ExpressionStatement")] := rfl
  have hjumps : ∀ s ∈ forsaking.statements, s.Unjumped := by decide
  have hpoints : ∀ l ∈ [7, 21, 30, 52, 72, 79, 86, 102, 110, 128],
      ∃ s ∈ forsaking.statements, s.point? = some l := by decide
  have hgraph : ∀ l ∈ [7, 21, 52, 72, 79, 102, 128], l ∈ forsaking.graph.labels := by decide
  have hlost : ∀ l ∈ [30, 86, 110], l ∉ forsaking.graph.labels := by decide
  obtain ⟨-, -, hcovered, -⟩ :=
    Program.points_covered_once forsaking _ hlabels hjumps
  refine ⟨by rw [hlabels]; rfl, hjumps, fun l hl => ⟨hgraph l hl, ?_⟩,
    fun l hl => ⟨hlost l hl, ?_⟩⟩
  · obtain ⟨s, hs, hpoint⟩ := hpoints l (by revert hl; revert l; decide)
    rcases hcovered s hs l hpoint with ⟨-, hreach, -⟩ | ⟨hnot, -⟩
    · exact hreach
    · exact absurd (hgraph l hl) hnot
  · obtain ⟨s, hs, hpoint⟩ := hpoints l (by revert hl; revert l; decide)
    rcases hcovered s hs l hpoint with ⟨hmem, -⟩ | ⟨-, hone⟩
    · exact absurd hmem (hlost l hl)
    · exact hone

end Liveness

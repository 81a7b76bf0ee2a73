/-
Liveness/Proofs/WellFormed.lean

Well-formed fragments.  The fragment of a statement or a block is empty if nothing
runs there; otherwise its fields fit each other, and all its labels are program
points inside (`fragments_wellFormed`).

If no two points of a program share a label, then no edge is listed twice.  The
parts of a statement have no label in common, so edges that come from different
parts, or lead from one part into another, differ in one of their ends.  Labels
inside one list may repeat before it is made into edges: a label can be at once an
exit, a `continue` and a place where the handler is entered from.  Where this can
happen the builder keeps each label once.
-/
import Liveness.Proofs.Built
import Liveness.Proofs.Coverage
import Liveness.Proofs.JsonReport
import Liveness.Report.Dot
import Mathlib.Data.List.Nodup

namespace Liveness

/-! ### Labels of a fragment -/

namespace Fragment

/-- All labels in the fields of a fragment. -/
def labels (f : Fragment) : List Label :=
  f.initial.toList ++ f.finals ++ f.flows.flatMap (fun e => [e.1, e.2]) ++ f.throwAt.toList ++
    f.breaks ++ f.continues ++ f.raises ++ f.entries.map (·.2)

theorem within_iff {f : Fragment} {points : List Label} : f.Within points ↔ f.labels ⊆ points := by
  simp only [labels, List.append_subset]
  constructor
  · intro h
    refine ⟨⟨⟨⟨⟨⟨⟨?_, h.finals⟩, ?_⟩, ?_⟩, h.breaks⟩, h.continues⟩, h.raises⟩, ?_⟩
    · exact fun l hl => h.initial l (Option.mem_toList.mp hl)
    · intro l hl
      obtain ⟨e, he, hl⟩ := List.mem_flatMap.mp hl
      rcases List.mem_cons.mp hl with rfl | hl
      · exact (h.flows e he).1
      · rw [List.mem_singleton.mp hl]
        exact (h.flows e he).2
    · exact fun l hl => h.throwAt l (Option.mem_toList.mp hl)
    · intro l hl
      obtain ⟨e, he, rfl⟩ := List.mem_map.mp hl
      exact h.entries e he
  · rintro ⟨⟨⟨⟨⟨⟨⟨hinitial, hfinals⟩, hflows⟩, hthrow⟩, hbreaks⟩, hcontinues⟩, hraises⟩, hentries⟩
    refine ⟨?_, hfinals, ?_, ?_, hbreaks, hcontinues, hraises, ?_⟩
    · exact fun l hl => hinitial (Option.mem_toList.mpr hl)
    · exact fun e he => ⟨hflows (List.mem_flatMap.mpr ⟨e, he, List.mem_cons_self⟩),
        hflows (List.mem_flatMap.mpr ⟨e, he, List.mem_cons_of_mem _ List.mem_cons_self⟩)⟩
    · exact fun l hl => hthrow (Option.mem_toList.mpr hl)
    · exact fun e he => hentries (List.mem_map_of_mem he)

theorem within_labels (f : Fragment) : f.Within f.labels :=
  within_iff.mpr (List.Subset.refl _)

/-- What holds of the fragment of a part of a program: its fields fit each other, and each of its
labels is the point of some statement inside. -/
structure WellFormed (f : Fragment) (inside : List Stmt) : Prop extends f.Coherent where
  points : ∀ l ∈ f.labels, ∃ s ∈ inside, s.point? = some l

end Fragment

theorem Block.within (b : Block) : b.fragment.Within b.points := by
  have h := Stmt.within (.blockStmt b)
  rwa [Stmt.fragment, ← Part.points_ofStmt] at h

/-- **Fragments are well-formed.**  The fragment of a statement or a block in which nothing runs is
the empty one.  Any other has last labels exactly if it can end normally, and if it cannot, a
`throw`, a `break` or a `continue` leaves it; a `throw` that every run meets is one of those that
leave it, and then it cannot end normally.  All its labels are points of the statement itself and
of those nested in it, or of the statements of the block. -/
theorem fragments_wellFormed :
    (∀ s : Stmt, s.fragment.WellFormed (s :: s.nested)) ∧
    ∀ b : Block, b.fragment.WellFormed b.statements := by
  constructor
  · intro s
    refine ⟨s.coherent, fun l hl => ?_⟩
    exact List.mem_filterMap.mp (Fragment.within_iff.mp s.within hl)
  · intro b
    refine ⟨b.coherent, fun l hl => ?_⟩
    exact List.mem_filterMap.mp (Fragment.within_iff.mp b.within hl)

/-! ### Lists of edges -/

/-- Some edges lead from the first labels to the second. -/
def Joins (edges : List Flow) (sources targets : List Label) : Prop :=
  ∀ e ∈ edges, e.1 ∈ sources ∧ e.2 ∈ targets

section Joins

variable {edges edges' : List Flow} {xs xs' ys ys' : List Label}

theorem Joins.disjoint_of_sources (h : Joins edges xs ys) (h' : Joins edges' xs' ys')
    (hd : xs.Disjoint xs') : edges.Disjoint edges' :=
  fun e he he' => hd (h e he).1 (h' e he').1

theorem Joins.disjoint_of_targets (h : Joins edges xs ys) (h' : Joins edges' xs' ys')
    (hd : ys.Disjoint ys') : edges.Disjoint edges' :=
  fun e he he' => hd (h e he).2 (h' e he').2

theorem Joins.mono (h : Joins edges xs ys) (hx : xs ⊆ xs') (hy : ys ⊆ ys') :
    Joins edges xs' ys' :=
  fun e he => ⟨hx (h e he).1, hy (h e he).2⟩

theorem Joins.append (h : Joins edges xs ys) (h' : Joins edges' xs ys) :
    Joins (edges ++ edges') xs ys :=
  fun e he => (List.mem_append.mp he).elim (h e) (h' e)

theorem joins_map {labels : List Label} {target : Label} (h : labels ⊆ xs) (ht : target ∈ ys) :
    Joins (labels.map (·, target)) xs ys := by
  intro e he
  obtain ⟨l, hl, rfl⟩ := List.mem_map.mp he
  exact ⟨h hl, ht⟩

/-- Different labels have different edges to one target. -/
theorem nodup_edgesTo {labels : List Label} (h : labels.Nodup) (target : Label) :
    (labels.map (·, target)).Nodup :=
  h.map fun _ _ heq => congrArg Prod.fst heq

end Joins

/-! ### Fragments without repetition -/

namespace Fragment

/-- No edge and no exit of a fragment is listed twice. -/
structure Once (f : Fragment) : Prop where
  flows : f.flows.Nodup
  finals : f.finals.Nodup

/-- Two fragments have no label in common. -/
def Apart (f g : Fragment) : Prop :=
  f.labels.Disjoint g.labels

section Once

variable {f next block handler finalizer : Fragment}

theorem joins_flows (f : Fragment) : Joins f.flows f.labels f.labels :=
  f.within_labels.flows

theorem Within.apart {points points' : List Label} (hf : f.Within points) (hg : next.Within points')
    (hd : points.Disjoint points') : f.Apart next :=
  fun _ hl hl' => hd (within_iff.mp hf hl) (within_iff.mp hg hl')

theorem apart_empty (f : Fragment) : f.Apart .empty :=
  List.disjoint_nil_right f.labels

theorem once_of_flows_eq_nil (hflows : f.flows = []) (hfinals : f.finals.Nodup) : f.Once :=
  ⟨by rw [hflows]; exact List.nodup_nil, hfinals⟩

theorem once_empty : empty.Once :=
  once_of_flows_eq_nil rfl List.nodup_nil

theorem once_step (label : Label) : (step label).Once :=
  once_of_flows_eq_nil rfl (List.nodup_singleton label)

theorem Once.exits (h : f.Once) : f.exits.Nodup := by
  rw [Fragment.exits]
  split
  · exact h.finals
  · exact List.nodup_nil

/-- Edges inside the first part, from there to the second, and inside the second. -/
theorem Once.andThen (hf : f.Once) (hnext : next.Once) (h : f.Apart next) (offset : Int) :
    (f.andThen offset next).Once := by
  rcases hn : next.initial with - | entry
  · rw [andThen_of_none offset hn]
    exact hf
  · rw [andThen_of_some offset hn]
    have hentry : entry ∈ next.labels := next.within_labels.initial entry hn
    have hinto : Joins (f.finals.map (·, entry)) f.labels next.labels :=
      joins_map f.within_labels.finals hentry
    refine ⟨?_, hnext.exits⟩
    refine ((hf.flows.append (nodup_edgesTo hf.finals entry) ?_).append hnext.flows ?_)
    · exact f.joins_flows.disjoint_of_targets hinto h
    · exact List.disjoint_append_left.mpr
        ⟨f.joins_flows.disjoint_of_sources next.joins_flows h,
          hinto.disjoint_of_sources next.joins_flows h⟩

theorem once_choice {branches : List Fragment} {test : Label} (withoutElse : Bool)
    (h : ∀ b ∈ branches, b.Once) (hapart : branches.Pairwise Apart)
    (htest : ∀ b ∈ branches, test ∉ b.labels) : (choice test withoutElse branches).Once := by
  refine ⟨?_, nodup_unique _⟩
  refine List.Nodup.append ?_ ?_ ?_
  · -- the branches are entered at different labels
    refine List.nodup_flatMap.mpr ⟨fun b _ => ?_, hapart.imp fun {b c} hbc => ?_⟩
    · cases b.initial with
      | none => exact List.nodup_nil
      | some l => exact List.nodup_singleton _
    · intro e he he'
      obtain ⟨l, hl, rfl⟩ := List.mem_map.mp he
      obtain ⟨l', hl', heq⟩ := List.mem_map.mp he'
      obtain rfl : l' = l := congrArg Prod.snd heq
      exact hbc (b.within_labels.initial _ (Option.mem_toList.mp hl))
        (c.within_labels.initial _ (Option.mem_toList.mp hl'))
  · refine List.nodup_flatMap.mpr ⟨fun b hb => (h b hb).flows, hapart.imp fun {b c} hbc => ?_⟩
    exact b.joins_flows.disjoint_of_sources c.joins_flows hbc
  · -- the test is no label of a branch
    intro e he he'
    obtain ⟨b, hb, he⟩ := List.mem_flatMap.mp he
    obtain ⟨l, hl, rfl⟩ := List.mem_map.mp he
    obtain ⟨c, hc, he'⟩ := List.mem_flatMap.mp he'
    exact htest c hc (c.joins_flows _ he').1

/-- The edge into the body, edges inside it, and edges back to the test. -/
theorem once_loop {test : Label} (h : block.Once) (htest : test ∉ block.labels) :
    (loop test block).Once := by
  have htest : [test].Disjoint block.labels := List.singleton_disjoint.mpr htest
  rcases hb : block.initial with - | entry
  · rw [loop_of_none test hb]
    exact ⟨List.nodup_singleton _, List.nodup_singleton _⟩
  · rw [loop_of_some test hb]
    have hentry : Joins [(test, entry)] [test] block.labels :=
      joins_map (List.Subset.refl [test]) (block.within_labels.initial entry hb)
    have hback : Joins ((unique (block.exits ++ block.continues)).map (·, test)) block.labels
        [test] := by
      refine joins_map (fun l hl => ?_) List.mem_cons_self
      rcases List.mem_append.mp (mem_unique.mp hl) with hl | hl
      · exact block.within_labels.finals (exits_subset block hl)
      · exact block.within_labels.continues hl
    refine ⟨?_, nodup_unique _⟩
    show ([(test, entry)] ++ block.flows ++ _).Nodup
    refine ((List.nodup_singleton _).append h.flows ?_).append (nodup_edgesTo (nodup_unique _) _) ?_
    · exact hentry.disjoint_of_sources block.joins_flows htest
    · exact List.disjoint_append_left.mpr
        ⟨hentry.disjoint_of_sources hback htest,
          block.joins_flows.disjoint_of_targets hback (List.disjoint_symm htest)⟩

/-! ### Guarded blocks -/

theorem joins_handled : Joins (handled block handler) (block.labels ++ handler.labels)
    handler.labels := by
  rw [handled]
  split
  next => exact fun e he => absurd he List.not_mem_nil
  next first hfirst =>
    have hsources := List.subset_append_left block.labels handler.labels
    refine (joins_map (List.Subset.trans block.within_labels.sources hsources)
      (handler.within_labels.initial first hfirst)).append ?_
    exact handler.joins_flows.mono (List.subset_append_right _ _) (List.Subset.refl _)

theorem nodup_handled (hh : handler.Once) (h : block.Apart handler) :
    (handled block handler).Nodup := by
  rw [handled]
  split
  next => exact List.nodup_nil
  next first hfirst =>
    have hinto : Joins (block.sources.map (·, first)) block.labels handler.labels :=
      joins_map block.within_labels.sources (handler.within_labels.initial first hfirst)
    exact (nodup_edgesTo (nodup_unique _) first).append hh.flows
      (hinto.disjoint_of_sources handler.joins_flows h)

theorem once_guarded (hb : block.Once) (hh : handler.Once) (hf : finalizer.Once)
    (hbh : block.Apart handler) (hbf : block.Apart finalizer) (hhf : handler.Apart finalizer) :
    (guarded block handler finalizer).Once := by
  rcases hi : block.initial with - | entry
  · rw [guarded_of_empty _ _ hi]
    exact hf
  -- what runs before the way out, as one piece
  have hbefore : Joins (block.flows ++ handled block handler) (block.labels ++ handler.labels)
      (block.labels ++ handler.labels) :=
    (block.joins_flows.mono (List.subset_append_left _ _) (List.subset_append_left _ _)).append
      (joins_handled.mono (List.Subset.refl _) (List.subset_append_right _ _))
  have hopen : (block.flows ++ handled block handler).Nodup :=
    hb.flows.append (nodup_handled hh hbh) (block.joins_flows.disjoint_of_targets joins_handled hbh)
  have hapart : (block.labels ++ handler.labels).Disjoint finalizer.labels :=
    List.disjoint_append_left.mpr ⟨hbf, hhf⟩
  rcases hlast : finalizer.initial with - | last
  · rw [guarded_open handler hi hlast]
    exact ⟨hopen, nodup_unique _⟩
  · rw [guarded_closed handler hi hlast]
    have hinto : Joins ((unique (guardExits block handler ++ handler.raises)).map (·, last))
        (block.labels ++ handler.labels) finalizer.labels := by
      refine joins_map (fun l hl => ?_) (finalizer.within_labels.initial last hlast)
      have hwithin := block.within_labels.mono (List.subset_append_left _ handler.labels)
      have hwithin' := handler.within_labels.mono (List.subset_append_right block.labels _)
      rcases List.mem_append.mp (mem_unique.mp hl) with hl | hl
      · exact hwithin.guardExits hwithin' hl
      · exact hwithin'.raises hl
    refine ⟨?_, ?_⟩
    · refine ((hopen.append (nodup_edgesTo (nodup_unique _) last) ?_).append hf.flows ?_)
      · exact hbefore.disjoint_of_targets hinto hapart
      · exact List.disjoint_append_left.mpr
          ⟨hbefore.disjoint_of_sources finalizer.joins_flows hapart,
            hinto.disjoint_of_sources finalizer.joins_flows hapart⟩
    · dsimp only
      split
      · exact hf.finals
      · exact List.nodup_nil

end Once

end Fragment

/-! ### Statements and blocks with distinct points -/

/-- The points inside a statement: its own, and those of its blocks one after another. -/
theorem Stmt.points_eq (s : Stmt) :
    s.points = s.point?.toList ++ s.blocks.flatMap Block.points := by
  rcases s with _ | _ | _ | ⟨_, _, _, _ | _, _⟩ | _ | _ | _ | ⟨_, _, _, _ | _, _⟩ | _ | _ <;>
    simp [Stmt.points, Stmt.nested, Stmt.blocks, Stmt.point?, Block.points, List.filterMap_cons]

section Distinct

variable {s : Stmt} (h : s.points.Nodup)

include h

theorem Stmt.nodup_points_of_mem_blocks {b : Block} (hb : b ∈ s.blocks) : b.points.Nodup := by
  rw [Stmt.points_eq] at h
  exact (List.nodup_flatMap.mp h.of_append_right).1 b hb

/-- The blocks of a statement share no label. -/
theorem Stmt.pairwise_apart :
    s.blocks.Pairwise fun b c => b.fragment.Apart c.fragment := by
  rw [Stmt.points_eq] at h
  refine (List.nodup_flatMap.mp h.of_append_right).2.imp fun {b c} hbc => ?_
  exact b.within.apart c.within hbc

/-- A test is no label of the blocks that it guards. -/
theorem Stmt.point_not_mem_labels {l : Label} (hl : s.point? = some l) {b : Block}
    (hb : b ∈ s.blocks) : l ∉ b.fragment.labels := by
  rw [Stmt.points_eq, List.nodup_append'] at h
  intro hmem
  exact h.2.2 (Option.mem_toList.mpr hl)
    (List.mem_flatMap.mpr ⟨b, hb, Fragment.within_iff.mp b.within hmem⟩)

theorem Stmt.once_of_blocks (ih : ∀ b ∈ s.blocks, b.points.Nodup → b.fragment.Once) :
    s.fragment.Once := by
  replace ih : ∀ b ∈ s.blocks, b.fragment.Once := fun b hb =>
    ih b hb (Stmt.nodup_points_of_mem_blocks h hb)
  have hapart := Stmt.pairwise_apart h
  have hown := fun {l : Label} (hl : s.point? = some l) {b : Block} (hb : b ∈ s.blocks) =>
    Stmt.point_not_mem_labels h hl hb
  rcases s with _ | _ | ⟨offset, test, body⟩ | ⟨offset, test, consequent, _ | alternate, folded⟩ |
    _ | _ | _ | ⟨offset, block, handler, _ | finalizer, param⟩ | b | ⟨offset, tag⟩
  case exprStmt => rw [Stmt.fragment]; exact Fragment.once_step _
  case declStmt => rw [Stmt.fragment]; exact Fragment.once_step _
  case whileStmt =>
    rw [Stmt.fragment]
    split
    · exact Fragment.once_step _
    · exact Fragment.once_loop (ih body (by simp [Stmt.blocks])) (hown rfl (by simp [Stmt.blocks]))
  case ifStmt.none =>
    have hc := ih consequent (by simp [Stmt.blocks])
    have htest : test.offset ∉ consequent.fragment.labels := hown rfl (by simp [Stmt.blocks])
    rw [Stmt.fragment]
    split
    · exact Fragment.once_choice _ (by simp [Fragment.once_empty]) (List.pairwise_singleton _ _)
        (by simp [Fragment.labels, Fragment.empty])
    · exact Fragment.once_choice _ (by simp [hc]) (List.pairwise_singleton _ _) (by simp [htest])
  case ifStmt.some =>
    have hc := ih consequent (by simp [Stmt.blocks])
    have ha := ih alternate (by simp [Stmt.blocks])
    have htest : test.offset ∉ consequent.fragment.labels := hown rfl (by simp [Stmt.blocks])
    have htest' : test.offset ∉ alternate.fragment.labels := hown rfl (by simp [Stmt.blocks])
    rw [Stmt.fragment]
    split
    · exact Fragment.once_choice _ (by simp [hc]) (List.pairwise_singleton _ _) (by simp [htest])
    · exact Fragment.once_choice _ (by simp [ha]) (List.pairwise_singleton _ _) (by simp [htest'])
    · exact Fragment.once_choice _ (by simp [hc, ha])
        (by simpa [Stmt.blocks] using hapart) (by simp [htest, htest'])
  case tryStmt.none =>
    have hbh : block.fragment.Apart handler.fragment := by simpa [Stmt.blocks] using hapart
    rw [Stmt.fragment]
    exact Fragment.once_guarded (ih block (by simp [Stmt.blocks]))
      (ih handler (by simp [Stmt.blocks])) Fragment.once_empty hbh (Fragment.apart_empty _)
      (Fragment.apart_empty _)
  case tryStmt.some =>
    obtain ⟨⟨hbh, hbf⟩, hhf⟩ : (block.fragment.Apart handler.fragment ∧
        block.fragment.Apart finalizer.fragment) ∧ handler.fragment.Apart finalizer.fragment := by
      simpa [Stmt.blocks] using hapart
    rw [Stmt.fragment]
    exact Fragment.once_guarded (ih block (by simp [Stmt.blocks]))
      (ih handler (by simp [Stmt.blocks])) (ih finalizer (by simp [Stmt.blocks])) hbh hbf hhf
  case blockStmt =>
    rw [Stmt.fragment]
    exact ih b (List.mem_singleton_self b)
  -- nothing else has an edge or an exit
  all_goals
    rw [Stmt.fragment]
    exact Fragment.once_of_flows_eq_nil rfl List.nodup_nil

end Distinct

theorem Stmt.once_sequence {ss : List Stmt} {f : Fragment} {points : List Label} (hf : f.Once)
    (hwithin : f.Within points)
    (h : (points ++ (Stmt.flatten ss).filterMap Stmt.point?).Nodup)
    (ih : ∀ s ∈ ss, s.points.Nodup → s.fragment.Once) : (Stmt.sequence f ss).Once := by
  induction ss generalizing f points with
  | nil =>
    rw [Stmt.sequence]
    exact hf
  | cons s rest ihrest =>
    rw [Stmt.points_flatten_cons, ← List.append_assoc] at h
    obtain ⟨-, hs, hdisjoint⟩ := List.nodup_append'.mp h.of_append_left
    rw [Stmt.sequence]
    split
    next =>
      -- the points so far and those of `s` are the points before the rest
      have hnext := hf.andThen (ih s List.mem_cons_self hs) (hwithin.apart s.within hdisjoint)
      have hmore := (hwithin.mono (List.subset_append_left _ _)).andThen
        (s.within.mono (List.subset_append_right _ _)) s.offset
      exact ihrest (hnext s.offset) hmore h fun r hr => ih r (List.mem_cons_of_mem s hr)
    next => exact hf

theorem Block.once_of_body (b : Block) (ih : ∀ s ∈ b.body, s.points.Nodup → s.fragment.Once)
    (h : b.points.Nodup) : b.fragment.Once := by
  obtain ⟨offset, body⟩ := b
  rw [Block.fragment]
  rw [Block.points, Block.statements, ← List.nil_append (List.filterMap _ _)] at h
  exact Stmt.once_sequence Fragment.once_empty Fragment.within_empty h ih

/-- No edge and no exit of a block with distinct points is listed twice. -/
theorem Block.once {b : Block} (h : b.points.Nodup) : b.fragment.Once :=
  Block.of_body (P := fun s => s.points.Nodup → s.fragment.Once)
    (Q := fun b => b.points.Nodup → b.fragment.Once)
    (fun _ ih h => Stmt.once_of_blocks h ih) Block.once_of_body b h

/-! ### Programs and their reports -/

/-- **No edge is listed twice.**  If the labels of a program are accepted, neither an edge nor an
exit of its flow graph is repeated.  So the three reports of an analysis tell the same edges in the
same order: the readable one and the document list those of the graph as they are, and the graph
report, which keeps one of each, leaves nothing out. -/
theorem Program.edges_listed_once (p : Program) (labels : List (Label × Json))
    (hlabels : p.labels = .ok labels) :
    p.graph.flows.Nodup ∧ p.graph.finals.Nodup ∧
    ∀ (config : Config) (a : Analysis), p.analyze config = .ok a →
      (∀ source, Report.flowsLine p.graph.flows ∈ Report.textLines a source) ∧
      (Report.contents? (Report.document a)).map (·.flows) = some p.graph.flows ∧
      ∀ name, Report.dotLines a name =
        ["digraph " ++ Report.dotQuote name ++ " \x7b",
          "  node [shape=box, fontname=\"monospace\"];"] ++
        p.graph.labels.map (Report.nodeLine a) ++ p.graph.flows.map Report.edgeLine ++
        ["\x7d"] := by
  have honce : p.block.fragment.Once := Block.once (Program.nodup_points hlabels)
  have hflows : p.graph.flows.Nodup := honce.flows
  refine ⟨hflows, honce.finals, fun config a ha => ?_⟩
  obtain ⟨hgraph, -⟩ := Program.analyze_eq_ok ha
  refine ⟨fun source => ?_, ?_, fun name => ?_⟩
  · simp [Report.textLines, hgraph]
  · rw [Report.contents?_document, hgraph]
    rfl
  · rw [Report.dotLines, hgraph, unique_eq_self hflows]

/-- `while (more) { try { step(); continue; } catch (e) {} }` -/
def resuming : Program where
  offset := 0
  body :=
    [.whileStmt 0 (.identifier 7 "more") ⟨13,
      [.tryStmt 15
        ⟨19, [.exprStmt 21 (.call 21 (.identifier 21 "step") []), .continueStmt 29 .null]⟩
        ⟨51, []⟩ none (.str "e")]⟩]

/-- The `continue` goes back to the test by itself and through the empty handler, and there is one
edge for both. -/
theorem resuming_edges_listed_once :
    (∃ labels, resuming.labels = .ok labels) ∧
    resuming.graph.flows = [(7, 21), (21, 29), (21, 7), (29, 7)] ∧
    [((7 : Label), (21 : Label)), (21, 29), (21, 7), (29, 7)].Nodup ∧
    ∃ a, resuming.analyze {} = .ok a ∧
      (Report.contents? (Report.document a)).map (·.flows) =
        some [(7, 21), (21, 29), (21, 7), (29, 7)] := by
  have hlabels : resuming.labels = .ok [(7, .str "Identifier"), (21, .str "ExpressionStatement"),
      (29, .str "ContinueStatement")] := rfl
  have hflows : resuming.graph.flows = [(7, 21), (21, 29), (21, 7), (29, 7)] := by decide
  have hrun : (resuming.analyze {}).toOption.any (fun _ => True) = true := by decide +kernel
  obtain ⟨hnodup, -, hreports⟩ := Program.edges_listed_once resuming _ hlabels
  obtain ⟨a, hrun, -⟩ := Program.exists_analysis hrun
  obtain ⟨-, hdocument, -⟩ := hreports {} a hrun
  rw [hflows] at hnodup hdocument
  exact ⟨⟨_, hlabels⟩, hflows, hnodup, a, hrun, hdocument⟩

end Liveness

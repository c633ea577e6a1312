import BatchFlow.Proofs.Graph.Reached
import BatchFlow.Proofs.Lowering.Degrees
import BatchFlow.Proofs.Lowering.Wrapping
import BatchFlow.Proofs.Outline.Line
import BatchFlow.Proofs.Outline.Names

/-!
# The shape of lowered graphs

A lowered graph is complete. Its tasks are the nodes of the workflow, every vertex has the edges
that its role needs, and all edges go forward along one line from the start to the end. So the graph
has no cycle, and since only the two ends of the line lack a parent or a child, every vertex but the
kill vertex lies between them.
-/

namespace BatchFlow

/-- The vertex stands for the node, with all that the node carries. -/
def Graph.Steps (g : Graph) (v : VertexId) (n : Node) : Prop :=
  ∃ x, g.get? v = some x ∧ x.name = n.name ∧ x.role = .task n.task

/-- A complete graph for a workflow. -/
structure Graph.WellFormed (g : Graph) (w : Workflow) : Prop where
  sound : g.Sound
  valid : g.problems = []
  /-- Tasks and nodes correspond to each other one to one. -/
  task_of_node : ∀ n ∈ w.nodes, ∃! v, g.Steps v n
  node_of_task : ∀ v x t, g.get? v = some x → x.role = .task t → ∃! n, n ∈ w.nodes ∧ g.Steps v n
  complete : ∀ v x, g.get? v = some x →
    x.role.Complete x.parents.length (x.arcs.map Arc.condition)
  kill_last : ∃ v, g.kill = some v ∧ g.size = v + 1
  acyclic : ∀ v, ¬ Relation.TransGen g.Child v v
  connected : ∀ v x, g.get? v = some x → x.role ≠ .kill →
    (∃ s, g.start = some s ∧ Relation.ReflTransGen g.Child s v) ∧
      ∃ f, g.finish = some f ∧ Relation.ReflTransGen g.Child v f

/-! ## Nodes of an outline -/

section

variable {w : Workflow}

theorem Row.nodes_append : ∀ r s : Row, (r.append s).nodes = r.nodes ++ s.nodes
  | .done, s => rfl
  | .task n next, s => by rw [Row.append, Row.nodes, Row.nodes, Row.nodes_append next s]; rfl
  | .fork arms next, s
  | .decision arms next, s => by
    rw [Row.append, Row.nodes, Row.nodes, Row.nodes_append next s, List.append_assoc]

mutual

theorem Row.Traces.node? (hw : w.Sound) {id stop : NodeId} {r : Row} :
    Row.Traces w id stop r → ∀ n ∈ r.nodes, w.node? n.id = some n
  | .done _ => fun n hn => by cases hn
  | .task _ hid hb ht => fun n hn => by
    rw [Row.nodes, Row.nodes_append, List.mem_cons, List.mem_append] at hn
    rcases hn with rfl | hn | hn
    · rw [hw.dag.id_eq _ _ hid]
      exact hid
    · exact Row.Bridges.node? hw hb n hn
    · exact Row.Traces.node? hw ht n hn

theorem Row.Bridges.node? (hw : w.Sound) {a : Place} {r : Row} :
    Row.Bridges w a r → ∀ n ∈ r.nodes, w.node? n.id = some n
  | .skip _ _ => fun n hn => by cases hn
  | .single _ _ ht => Row.Traces.node? hw ht
  | .fork _ _ ht
  | .decision _ ht => fun n hn => by
    rw [Row.nodes, Row.nodes, List.append_nil] at hn
    exact Arms.Traces.node? hw ht n hn

theorem Arms.Traces.node? (hw : w.Sound) {merge : NodeId}
    {heads : List (NodeId × Option Condition)} {arms : Arms} :
    Arms.Traces w merge heads arms → ∀ n ∈ arms.nodes, w.node? n.id = some n
  | .none _ => fun n hn => by cases hn
  | .arm ht hmore => fun n hn => by
    rw [Arms.nodes, List.mem_append] at hn
    exact hn.elim (Row.Traces.node? hw ht n) (Arms.Traces.node? hw hmore n)

end

/-- The nodes of an outline are those of the workflow. -/
theorem Row.Outlines.mem_nodes_iff (hw : w.Sound) {r : Row} (ho : Row.Outlines w r) {n : Node} :
    n ∈ r.nodes ↔ n ∈ w.nodes := by
  cases ho with
  | @mk opening rest hb ht hnodup =>
    have hnode : ∀ m ∈ (opening.append rest).nodes, w.node? m.id = some m := by
      intro m hm
      rw [Row.nodes_append, List.mem_append] at hm
      exact hm.elim (hb.node? hw m) (ht.node? hw m)
    constructor
    · intro hn
      exact Dag.mem_nodes_iff.mpr ⟨n.id, hnode n hn⟩
    · intro hn
      obtain ⟨i, hi⟩ := Dag.mem_nodes_iff.mp hn
      have hid := hw.dag.id_eq i n hi
      have hmem : n.id ∈ (opening.append rest).ids :=
        (Outline.mem_ids_append hw hb ht n.id).mpr (hid ▸ Dag.lt_size hi)
      obtain ⟨m, hm, hmid⟩ := List.mem_map.mp hmem
      have hsame : w.node? n.id = some m := hmid ▸ hnode m hm
      rw [hid] at hsame
      rw [Option.some.inj (hi.symm.trans hsame)]
      exact hm

theorem Row.Outlines.nodup {r : Row} (ho : Row.Outlines w r) : r.ids.Nodup := by
  cases ho with
  | mk _ _ hnodup => exact hnodup

end

/-! ## The graph of an outline -/

theorem Row.task_of_station {r : Row} {taken : List String} {st : Station} {t : Task}
    (hst : st ∈ r.stations taken) (ht : st.2 = .task t) : ∃ n ∈ r.nodes, st = n.station := by
  simp only [stations, List.mem_append, List.mem_cons, List.not_mem_nil, or_false] at hst
  rcases hst with (hst | hst) | hst
  · rcases hst with rfl | rfl <;> cases ht
  · exact (r.edits_named taken).1 st hst (by rw [ht]; rfl)
  · rw [hst] at ht
    cases ht

/-- A site of a task is the vertex of one of the nodes. -/
theorem Row.exists_steps {r : Row} (name : String) (taken : List String) {v : Nat} {t : Task}
    (hv : (v, .task t) ∈ r.allSites) :
    ∃ n ∈ r.nodes, t = n.task ∧ (r.graph name taken).Steps v n := by
  rw [← r.sitesOf_stations taken] at hv
  obtain ⟨label, hst⟩ := mem_sitesOf.mp hv
  obtain ⟨n, hn, heq⟩ := Row.task_of_station (List.mem_of_getElem? hst) rfl
  rw [Node.station, Prod.mk.injEq, Role.task.injEq] at heq
  obtain ⟨rfl, rfl⟩ := heq
  refine ⟨n, hn, rfl, vertexAt r.allWires v n.station, ?_, rfl, rfl⟩
  rw [r.get?_graph, hst]
  rfl

namespace Row.Outlines

variable {w : Workflow} {r : Row} (hw : w.Sound) (ho : Row.Outlines w r) (name : String)
  (taken : List String)
include hw ho

theorem node_unique {m n : Node} (hm : m ∈ r.nodes) (hn : n ∈ r.nodes) (hid : m.id = n.id) :
    m = n := by
  obtain ⟨i, hi⟩ := Dag.mem_nodes_iff.mp ((ho.mem_nodes_iff hw).mp hm)
  obtain ⟨j, hj⟩ := Dag.mem_nodes_iff.mp ((ho.mem_nodes_iff hw).mp hn)
  have hij : i = j := by rw [← hw.dag.id_eq i m hi, ← hw.dag.id_eq j n hj, hid]
  rw [← hij] at hj
  exact Option.some.inj (hi.symm.trans hj)

theorem task_of_node {n : Node} (hn : n ∈ r.nodes) : ∃! v, (r.graph name taken).Steps v n := by
  obtain ⟨v, t, hv, hsource⟩ := (r.mem_ids_iff 2).mp (List.mem_map_of_mem hn)
  obtain ⟨m, hm, rfl, hsteps⟩ := Row.exists_steps name taken (Row.mem_allSites_of_mem_sites hv)
  rw [ho.node_unique hw hm hn hsource] at hv hsteps
  refine ⟨v, hsteps, fun v' hv' => ?_⟩
  obtain ⟨x, hx, -, hrole⟩ := hv'
  have hshows := Row.shows_graph (ho.proper hw) name taken
  obtain ⟨t, ht, hsource⟩ := hshows.wraps_iff.mp ⟨x, n.task, hx, hrole, rfl⟩
  exact Row.site_unique ho.nodup ht hv hsource

theorem node_of_task {v : VertexId} {x : Vertex} {t : Task}
    (hx : (r.graph name taken).get? v = some x) (ht : x.role = .task t) :
    ∃! n, n ∈ r.nodes ∧ (r.graph name taken).Steps v n := by
  have hshows := Row.shows_graph (ho.proper hw) name taken
  obtain ⟨n, hn, -, hsteps⟩ := Row.exists_steps name taken ((hshows.role_iff v _).mp ⟨x, hx, ht⟩)
  refine ⟨n, ⟨hn, hsteps⟩, ?_⟩
  intro m hm
  obtain ⟨y, hy, -, hrole⟩ := hm.2
  obtain ⟨z, hz, -, hrole'⟩ := hsteps
  rw [Option.some.inj (hz.symm.trans hy), hrole, Role.task.injEq] at hrole'
  exact ho.node_unique hw hm.1 hn (congrArg Task.source hrole')

theorem complete {v : VertexId} {x : Vertex} (hx : (r.graph name taken).get? v = some x) :
    x.role.Complete x.parents.length (x.arcs.map Arc.condition) := by
  rw [r.get?_graph] at hx
  obtain ⟨st, hst, rfl⟩ := Option.map_eq_some_iff.mp hx
  have h := Row.complete_allSites (ho.full hw) (Row.mem_allSites_of_stations hst)
  simpa [vertexAt, Wire.arc, Function.comp_def] using h

theorem valid : (r.graph name taken).problems = [] := by
  have hdefault : (r.graph name taken).vertices.filterMap (fun x =>
      if x.role = .decision && !x.hasDefault then some (GraphError.missingDefault x.name)
      else none) = [] := by
    refine List.filterMap_eq_nil_iff.mpr fun x hx => if_neg ?_
    obtain ⟨v, hv⟩ := List.mem_iff_getElem?.mp hx
    have h := ho.complete hw name taken hv
    intro hlacks
    rw [Bool.and_eq_true, decide_eq_true_eq, Bool.not_eq_true'] at hlacks
    rw [hlacks.1] at h
    have hpos : 0 < (x.arcs.map Arc.condition).countP (·.any Condition.isDefault) := by
      have := h.2
      omega
    rw [List.countP_map, List.countP_pos_iff] at hpos
    have hsome : x.hasDefault = true := List.any_eq_true.mpr hpos
    rw [hlacks.2] at hsome
    cases hsome
  rw [Graph.problems, hdefault]
  rfl

/-! ## Along the line -/

theorem position_of_child {a b : VertexId} (h : (r.graph name taken).Child a b) :
    r.position a < r.position b := by
  have hshows := Row.shows_graph (ho.proper hw) name taken
  obtain ⟨e, he, rfl, rfl⟩ := hshows.child_iff.mp h
  exact Row.position_lt_position he

theorem acyclic (v : VertexId) : ¬ Relation.TransGen (r.graph name taken).Child v v := by
  have hlt : ∀ a b : VertexId, Relation.TransGen (r.graph name taken).Child a b →
      r.position a < r.position b := by
    intro a b h
    induction h with
    | single h => exact ho.position_of_child hw name taken h
    | tail _ h ih => exact Nat.lt_trans ih (ho.position_of_child hw name taken h)
  exact fun h => Nat.lt_irrefl _ (hlt v v h)

/-- Every vertex but the kill vertex is reached from the start and reaches the end: following edges
back, or on, it moves along the line until there are none. -/
theorem connected {v : Nat} (hv : v < 2 + r.size) :
    Relation.ReflTransGen (r.graph name taken).Child 0 v ∧
      Relation.ReflTransGen (r.graph name taken).Child v 1 := by
  have hshows := Row.shows_graph (ho.proper hw) name taken
  have hfull := ho.full hw
  have hchild : ∀ e ∈ r.allWires, (r.graph name taken).Child e.port.source e.target :=
    fun e he => hshows.child_iff.mpr ⟨e, he, rfl, rfl⟩
  constructor
  · induction hk : r.position v using Nat.strong_induction_on generalizing v with
    | _ k ih =>
      rcases (Row.exists_wires hfull hv).1 with rfl | ⟨e, he, rfl⟩
      · exact .refl
      · have hlt := Row.position_lt_position he
        have hsource : e.port.source < 2 + r.size := by
          have := (Row.mem_allWires he).2
          omega
        exact (ih _ (hk ▸ hlt) hsource rfl).tail (hchild e he)
  · induction hk : 2 + r.size - r.position v using Nat.strong_induction_on generalizing v with
    | _ k ih =>
      rcases (Row.exists_wires hfull hv).2 with rfl | ⟨e, he, rfl⟩
      · exact .refl
      · have hlt := Row.position_lt_position he
        have hsource := r.position_lt.mpr hv
        have htarget : e.target < 2 + r.size := by
          have := (Row.mem_allWires he).1
          omega
        exact .head (hchild e he) (ih _ (by omega) htarget rfl)

end Row.Outlines

/-- Lowering makes a complete graph. -/
theorem Workflow.Built.lowered_wellFormed {w : Workflow} (h : w.Built) {g : Graph}
    (hg : Graph.ofWorkflow w = .ok g) : g.WellFormed w := by
  have hw := h.sound
  obtain ⟨r, ho, rfl⟩ := hw.exists_graph hg
  have hsize : (r.graph w.name w.givenNames).size = 2 + r.size + 1 := by
    rw [Graph.size, Row.graph, length_drawing, r.length_stations]
    omega
  have hsound := (Graph.Reached.lowered hg).sound
  constructor
  case sound => exact hsound
  case valid => exact ho.valid hw w.name w.givenNames
  case task_of_node =>
    intro n hn
    exact ho.task_of_node hw w.name w.givenNames ((ho.mem_nodes_iff hw).mpr hn)
  case node_of_task =>
    intro v x t hx ht
    simp only [← ho.mem_nodes_iff hw]
    exact ho.node_of_task hw w.name w.givenNames hx ht
  case complete =>
    intro v x hx
    exact ho.complete hw w.name w.givenNames hx
  case kill_last => exact ⟨2 + r.size, rfl, hsize⟩
  case acyclic => exact ho.acyclic hw w.name w.givenNames
  case connected =>
    intro v x hx hkill
    have hlt : v < 2 + r.size := by
      have hlt := Graph.exists_get?_iff.mp ⟨x, hx⟩
      rw [hsize] at hlt
      refine Nat.lt_of_le_of_ne (Nat.le_of_lt_succ hlt) ?_
      intro heq
      obtain ⟨y, hy, hrole⟩ := (hsound.kill v).mp (congrArg some heq.symm)
      exact hkill (Option.some.inj (hx.symm.trans hy) ▸ hrole)
    obtain ⟨hstart, hfinish⟩ := ho.connected hw w.name w.givenNames hlt
    exact ⟨⟨0, rfl, hstart⟩, 1, rfl, hfinish⟩

theorem nightly_wellFormed : Workflow.nightly.Built ∧
    Graph.ofWorkflow .nightly = .ok Graph.nightly ∧ Graph.nightly.WellFormed .nightly :=
  ⟨Workflow.nightly_built, Graph.ofWorkflow_nightly,
    Workflow.nightly_built.lowered_wellFormed Graph.ofWorkflow_nightly⟩

end BatchFlow

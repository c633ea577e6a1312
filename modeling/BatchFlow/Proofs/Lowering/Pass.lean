import BatchFlow.Lowering
import BatchFlow.Proofs.Graph.Arena
import BatchFlow.Proofs.Outcome
import BatchFlow.Proofs.Outline.Sheets

/-!
# A pass over the nodes

Lowering goes through an outline, so a workflow that has none is refused before its graph is begun.
It can also be done in one pass that adds vertices and connects them as it meets the nodes. Where
the nodes cannot be lowered, the pass stops with the graph half done, and until then it has asked
for connections that a graph could refuse.

What a pass does to its graph, a sheet notes down as edits. As long as the edits of the sheet are
accepted, so are the connections that the pass asks for.
-/

namespace BatchFlow

/-! ## The pass -/

/-- A lowering under way. -/
structure Pass where
  graph : Graph
  names : NameSupply
  /-- The nodes that have a vertex. -/
  lowered : List NodeId := []
  /-- Why connections were refused. -/
  refusals : List GraphError := []

/-- A part of a pass. When it fails, what it has done so far remains. -/
abbrev Lowering := EStateM GraphError Pass

namespace Lowering

/-- Adds a vertex at the end of the arena. -/
def add (edit : Graph → Graph) : Lowering VertexId := fun s =>
  .ok s.graph.size { s with graph := edit s.graph }

def addNamed (stem : Stem) (role : Role) : Lowering VertexId := fun s =>
  let (name, names) := s.names.next stem
  add (·.push name role) { s with names }

/-- Closes a stub. -/
def attach (stub : Stub) (target : VertexId) : Lowering Unit := fun s =>
  match s.graph.connect stub.source target stub.condition with
  | .ok graph => .ok () { s with graph }
  | .error e => .error e { s with refusals := s.refusals ++ [e] }

/-- Adds the vertex of a node that has none. -/
def addNode (id : NodeId) (n : Node) : Lowering VertexId := fun s =>
  if s.lowered.contains id then .error (.unstructuredBranch n.name) s
  else add (·.push n.name (.task n.task)) { s with lowered := s.lowered ++ [id] }

/-- Lowers the nodes from one up to, but without, a stop. The answer holds the stub behind them. -/
abbrev Chain := NodeId → NodeId → Stub → Lowering Stub

/-- Lowers arms one after the other. -/
def arms (chain : Chain) (merge : NodeId) (opening closing : VertexId) :
    List (NodeId × Option Condition) → Lowering Unit
  | [] => pure ()
  | (head, condition) :: rest => do
      let out ← chain head merge ⟨opening, condition⟩
      attach out closing
      arms chain merge opening closing rest

/-- Lowers a block with its opening and its closing. -/
def enclose (chain : Chain) (opens closes : Stem × Role) (merge : NodeId)
    (heads : List (NodeId × Option Condition)) (stub : Stub) : Lowering Stub := do
  let opening ← addNamed opens.1 opens.2
  let closing ← addNamed closes.1 closes.2
  attach stub opening
  arms chain merge opening closing heads
  return ⟨closing, none⟩

def parallel (chain : Chain) (heads : List NodeId) (merge : NodeId) (stub : Stub) :
    Lowering Stub :=
  match heads.filter (· ≠ merge) with
  | [] => pure stub
  | [head] => chain head merge stub
  | heads => enclose chain (.fork, .fork) (.join, .join) merge (heads.map (·, none)) stub

def choice (chain : Chain) (n : Node) (merge : NodeId) (stub : Stub) : Lowering Stub :=
  if n.defaultChild?.isNone then throw (.missingDefault n.name)
  else
    let heads := n.conditionalChildren.map fun b => (b.node, some b.condition)
    enclose chain (.decision, .decision) (.decisionJoin, .decisionJoin) merge heads stub

def block (chain : Chain) (n : Node) (merge : NodeId) (stub : Stub) : Lowering Stub :=
  if n.conditionalChildren.isEmpty then parallel chain n.plainChildren merge stub
  else choice chain n merge stub

/-- The chain that begins at `first` and has come to `id`. -/
def chain (w : Workflow) (m : MergePoints) : Nat → NodeId → Chain
  | 0, first, _, _, _ => throw (.unstructuredBranch (w.nameOf first))
  | bound + 1, first, id, stop, stub =>
      if id = stop then pure stub
      else match w.node? id with
        | none => throw (.unstructuredBranch (w.nameOf first))
        | some n => do
            let vertex ← addNode id n
            attach stub vertex
            let merge := m.ofNode id
            let out ← block (fun head => chain w m bound head head) n merge ⟨vertex, none⟩
            chain w m bound first merge stop out

/-- Lowers all nodes from the roots on. -/
def run (w : Workflow) (m : MergePoints) : Lowering Graph := do
  let chain : Chain := fun head => chain w m (w.size + 1) head head
  let start ← add Graph.addStart
  let finish ← add Graph.addFinish
  let merge := m.ofAll w.roots
  let out ← parallel chain w.roots merge ⟨start, none⟩
  let out ← chain merge m.sink out
  attach out finish
  let _ ← add Graph.addKill
  let s ← get
  match (List.range w.size).find? fun id => !s.lowered.contains id with
  | some id => throw (.unstructuredBranch (w.nameOf id))
  | none => return s.graph

/-- Makes the structured graph of a workflow. -/
def ofWorkflow (w : Workflow) : Lowering Graph := do
  let taken ← answer w.checkNames
  let order ← answer w.topologicalOrder
  modify fun s => { s with names := .start taken }
  run w (.ofOrder w order)

end Lowering

/-- Nothing is lowered yet. -/
def Pass.ofWorkflow (w : Workflow) : Pass := { graph := { name := w.name }, names := .start [] }

/-! ## A pass and a sheet -/

/-- The edits are all performed. -/
def Graph.Accepts (g : Graph) (edits : List Graph.Edit) : Prop := ∃ g', g.performAll edits = .ok g'

theorem Graph.Accepts.cut {g : Graph} {edits edits' : List Graph.Edit}
    (h : g.Accepts edits') (hp : edits <+: edits') : g.Accepts edits := by
  obtain ⟨rest, rfl⟩ := hp
  obtain ⟨g', hg'⟩ := h
  rw [performAll_append] at hg'
  obtain ⟨g'', hg'', -⟩ := bind_eq_ok_iff.mp hg'
  exact ⟨g'', hg''⟩

/-- The pass has done what the sheet says, and nothing was refused. -/
structure Pass.Mirrors (s : Pass) (base : Graph) (t : Sheet) : Prop where
  graph : base.performAll t.edits = .ok s.graph
  size : s.graph.size = t.next
  names : s.names = t.names
  refusals : s.refusals = []

section

variable {base : Graph} {s : Pass} {t : Sheet}

theorem Pass.Mirrors.add (h : s.Mirrors base t) {edit : Graph.Edit} {name : String} {role : Role}
    (hst : edit.station? = some (name, role)) :
    ({ s with graph := s.graph.push name role } : Pass).Mirrors base (t.add edit) := by
  refine ⟨?_, ?_, h.names, h.refusals⟩
  · show base.performAll (t.edits ++ [edit]) = _
    rw [performAll_append, h.graph, ok_bind, performAll_cons, perform_station hst]
    rfl
  · show (s.graph.vertices ++ [_]).length = t.next + 1
    rw [List.length_append, ← h.size]
    rfl

/-- A connection that the sheet has room for is made. -/
theorem Pass.Mirrors.attach (h : s.Mirrors base t) {stub : Stub} {target : VertexId}
    (hacc : base.Accepts (t.connect stub target).edits) :
    ∃ s', Lowering.attach stub target s = .ok () s' ∧ s'.Mirrors base (t.connect stub target) ∧
      s'.lowered = s.lowered := by
  obtain ⟨g, hg⟩ := hacc
  have hall := hg
  rw [Sheet.connect, performAll_append, h.graph, ok_bind] at hg
  obtain ⟨g', hconnect, hg'⟩ := bind_eq_ok_iff.mp hg
  cases hg'
  refine ⟨{ s with graph := g }, ?_, ⟨hall, ?_, h.names, h.refusals⟩, rfl⟩
  · rw [Lowering.attach, show s.graph.connect _ _ _ = _ from hconnect]
  · obtain ⟨x, y, -, -, -, -, rfl⟩ := Graph.connect_eq_ok_iff.mp hconnect
    show (Graph.linked ..).length = t.next
    rw [Graph.length_linked]
    exact h.size

theorem Pass.Mirrors.addNode (h : s.Mirrors base t) {id : NodeId} (n : Node)
    (hnew : ¬ s.lowered.contains id = true) :
    ∃ s', Lowering.addNode id n s = .ok t.next s' ∧
      s'.Mirrors base (t.add (.addTask n.name n.task)) ∧ s'.lowered = s.lowered ++ [id] := by
  have hmet : ({ s with lowered := s.lowered ++ [id] } : Pass).Mirrors base t :=
    ⟨h.graph, h.size, h.names, h.refusals⟩
  refine ⟨_, ?_, hmet.add rfl, rfl⟩
  rw [← h.size, Lowering.addNode, if_neg hnew]
  rfl

theorem Pass.Mirrors.addNamed (h : s.Mirrors base t) (stem : Stem) {role : Role}
    {edit : String → Graph.Edit} (hst : ∀ name, (edit name).station? = some (name, role)) :
    ∃ s', Lowering.addNamed stem role s = .ok t.next s' ∧
      s'.Mirrors base (t.addNamed stem edit) ∧ s'.lowered = s.lowered := by
  have hnames : ({ s with names := (t.names.next stem).2 } : Pass).Mirrors base
      { t with names := (t.names.next stem).2 } := ⟨h.graph, h.size, rfl, h.refusals⟩
  refine ⟨_, ?_, hnames.add (hst _), rfl⟩
  rw [← h.size, Lowering.addNamed, h.names]
  rfl

end

end BatchFlow

import BatchFlow.Dag
import BatchFlow.Workflow.Declarations

/-!
# Workflows

A workflow is a named set of nodes with distinct names, in an arena of its own, so later changes to
the dag they came from do not touch it. Which nodes belong to it is decided by connection: an entry
brings in every node that a chain of edges joins to it, in whichever direction.

Connection is computed by labels. Each node gets a fresh label, and every label of one of its
parents gives way to it, so two nodes carry one label exactly when they are connected. One pass over
the arena is enough because parents stand before their children.
-/

namespace BatchFlow

/-- A named, self-contained set of nodes. -/
structure Workflow where
  name : String
  dag : Dag
  /-- The nodes without parents, in arena order. -/
  roots : List NodeId
  parameters : List Parameter := []
  global : Option Global := none
  credentials : List Credential := []
  deriving DecidableEq

namespace Dag

/-- Extends the labels of the first nodes by one node: the new label takes the place of each label
that a parent carries. -/
def extendLabels (labels : List Nat) (n : Node) : List Nat :=
  let fresh := labels.length
  let merged := n.parents.filterMap fun p => labels[p]?
  (labels ++ [fresh]).map fun l => if merged.contains l then fresh else l

/-- A label for each node; nodes are connected when their labels agree. -/
def labels (d : Dag) : List Nat := d.nodes.foldl extendLabels []

/-- The nodes that some entry is connected to, in arena order. -/
def connected (d : Dag) (entries : List NodeId) : List NodeId :=
  let labels := d.labels
  let wanted := entries.filterMap fun e => labels[e]?
  (List.range d.size).filter fun i =>
    match labels[i]? with
    | some l => wanted.contains l
    | none => false

/-- The first name that an earlier node carries, too. -/
def repeatedName? (d : Dag) : Option String :=
  go [] d.nodes
where
  go (seen : List String) : List Node → Option String
    | [] => none
    | n :: rest => if seen.contains n.name then some n.name else go (n.name :: seen) rest

end Dag

namespace Workflow

def nodes (w : Workflow) : List Node := w.dag.nodes

def node? (w : Workflow) (id : NodeId) : Option Node := w.dag.get? id

def size (w : Workflow) : Nat := w.dag.size

/-- A workflow under construction. -/
structure Draft where
  name : WriteOnce String := {}
  entries : List NodeId := []
  parameters : List Parameter := []
  global : WriteOnce Global := {}
  credentials : List Credential := []
  deriving DecidableEq

inductive Edit where
  | name (text : String)
  /-- Brings in the component of a node. -/
  | entry (id : NodeId)
  | parameter (parameter : Parameter)
  | global (global : Global)
  | credential (credential : Credential)
  deriving DecidableEq

namespace Draft

def apply (d : Draft) : Edit → Except BuildError Draft
  | .name text => return { d with name := ← d.name.set "workflow name" text }
  | .entry id => return { d with entries := d.entries ++ [id] }
  | .parameter p => return { d with parameters := d.parameters ++ [p] }
  | .global g => return { d with global := ← d.global.set "global" g }
  | .credential c => return { d with credentials := d.credentials ++ [c] }

/-- The workflow of the components that hold the entries. -/
def build (d : Draft) (source : Dag) : Except BuildError Workflow := do
  let name ← match d.name.value with
    | some name => pure name
    | none => throw (.missingName .workflow)
  d.entries.forM fun e => do let _ ← source.node e
  let dag := source.subset (source.connected d.entries)
  match dag.repeatedName? with
  | some repeated => throw (.duplicateName repeated name)
  | none =>
      return { name, dag
               roots := (dag.nodes.filter fun n => n.parents.isEmpty).map Node.id
               parameters := d.parameters
               global := d.global.value
               credentials := d.credentials }

end Draft
end Workflow
end BatchFlow

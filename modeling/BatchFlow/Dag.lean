import BatchFlow.Node

/-!
# Dags

An arena of nodes. Nodes are only ever appended, and an id is a place in the arena, so a node's
parents stand before it.

`Dag.insert` checks every edge of the new node before it links any, so a refused insertion leaves
the dag as it was. Linking checks again; that it then never refuses is a property of the checks.
-/

namespace BatchFlow

/-- Nodes connected by parent and child edges. -/
structure Dag where
  nodes : List Node := []
  deriving DecidableEq

namespace Dag

def size (d : Dag) : Nat := d.nodes.length

def get? (d : Dag) (id : NodeId) : Option Node := d.nodes[id]?

/-- The node with an id, or an error that names the id. -/
def node (d : Dag) (id : NodeId) : Except BuildError Node :=
  match d.get? id with
  | some n => .ok n
  | none => .error (.unknownNode id)

def contains (d : Dag) (id : NodeId) : Bool := id < d.size

/-- The first node with a name. -/
def findByName? (d : Dag) (name : String) : Option Node :=
  d.nodes.find? fun n => n.name == name

/-- Whether a parent exists and can take one more child. -/
def checkLink (d : Dag) (l : Link) : Except BuildError Unit := do
  (← d.node l.parent).check l.condition

/-- Registers a child with one of its parents. -/
def link (child : NodeId) (d : Dag) (l : Link) : Except BuildError Dag := do
  let parent ← (← d.node l.parent).addChild child l.condition
  return ⟨d.nodes.set l.parent parent⟩

/-- Appends a node and registers it with its parents. The new id is the old size. -/
def insert (d : Dag) (spec : NodeSpec) (action : Action) : Except BuildError (NodeId × Dag) := do
  let name ← match spec.name with
    | some name => pure name
    | none => throw (.missingName .node)
  spec.links.forM d.checkLink
  let id := d.size
  let linked ← spec.links.foldlM (link id) d
  let new : Node :=
    { id, name, action
      plainParents := spec.plainParents
      conditionalParents := spec.conditionalParents
      handler := spec.handler }
  return (id, ⟨linked.nodes ++ [new]⟩)

/-- A copy of the nodes with these ids in an arena of their own, numbered in the order given. -/
def subset (d : Dag) (ids : List NodeId) : Dag :=
  ⟨ids.zipIdx.filterMap fun (id, place) =>
    (d.get? id).map (Node.renumber ids.idxOf? place)⟩

end Dag
end BatchFlow

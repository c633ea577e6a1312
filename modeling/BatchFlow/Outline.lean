import BatchFlow.Workflow.MergePoints

/-!
# Outlines

An outline is a workflow written as nested blocks: a row of nodes in which forks and decisions
stand, each with rows for arms that run between its opening and its closing. It fixes the shape of a
structured graph and nothing else: no vertex has an id or a generated name yet.

The walk from a node to a stop goes along merge points. After a node comes the block of its
branches, which the walk enters with the node's merge point for a stop, and the walk goes on from
that merge point. Ids grow along edges, so the number of ids up to the sink bounds the walk.
A node that is met twice lies behind branches that never merged, and the workflow is refused.
-/

namespace BatchFlow

mutual

/-- Nodes and blocks that run one after the other. -/
inductive Row where
  | done
  | task (node : Node) (next : Row)
  | fork (arms : Arms) (next : Row)
  | decision (arms : Arms) (next : Row)

/-- The arms of a block in order. Those of a decision have conditions. -/
inductive Arms where
  | none
  | arm (condition : Option Condition) (row : Row) (more : Arms)

end

namespace Row

/-- One row after the other. -/
def append : Row → Row → Row
  | done, r => r
  | task n next, r => task n (next.append r)
  | fork arms next, r => fork arms (next.append r)
  | decision arms next, r => decision arms (next.append r)

end Row

mutual

/-- The nodes of a row, those of its blocks included, in the order the walk met them. -/
def Row.nodes : Row → List Node
  | .done => []
  | .task n next => n :: next.nodes
  | .fork arms next => arms.nodes ++ next.nodes
  | .decision arms next => arms.nodes ++ next.nodes

def Arms.nodes : Arms → List Node
  | .none => []
  | .arm _ row more => row.nodes ++ more.nodes

end

def Row.ids (r : Row) : List NodeId := r.nodes.map Node.id

namespace Outline

/-- Why a workflow has no outline. The last three never come about for a workflow that was built
from a dag: they are what the walk answers where its own bounds end. -/
inductive Fault where
  /-- A node with conditional children has no default among them. -/
  | noDefault (id : NodeId)
  /-- The walk met a node for the second time. -/
  | metTwice (id : NodeId)
  /-- The walk passed the last node without meeting its stop. -/
  | pastEnd (id : NodeId)
  /-- The walk was not over within its bound. -/
  | exhausted (id : NodeId)
  /-- The walk ended without meeting a node. -/
  | missed (id : NodeId)
  deriving DecidableEq

def Fault.toGraphError (w : Workflow) : Fault → GraphError
  | noDefault id => .missingDefault (w.nameOf id)
  | metTwice id | pastEnd id | exhausted id | missed id => .unstructuredBranch (w.nameOf id)

/-- A walk: from a node to a stop, past the nodes that were met before. -/
abbrev Walk := NodeId → NodeId → List NodeId → Except Fault Row

/-- The arms that start at some nodes and stop at one merge point, walked in order. -/
def armsOf (walk : Walk) (merge : NodeId) :
    List (NodeId × Option Condition) → List NodeId → Except Fault Arms
  | [], _ => .ok .none
  | (head, condition) :: rest, seen => do
      let row ← walk head merge seen
      let more ← armsOf walk merge rest (seen ++ row.ids)
      return .arm condition row more

/-- The block of unconditional branches. A branch that starts at the merge point is no branch, and a
single branch needs no fork. -/
def parallel (walk : Walk) (heads : List NodeId) (merge : NodeId) (seen : List NodeId) :
    Except Fault Row :=
  match heads.filter (· ≠ merge) with
  | [] => .ok .done
  | [head] => walk head merge seen
  | heads => do return .fork (← armsOf walk merge (heads.map (·, none)) seen) .done

/-- The block of conditional branches. Every branch counts, also one that is empty. -/
def choice (walk : Walk) (n : Node) (merge : NodeId) (seen : List NodeId) : Except Fault Row :=
  if n.defaultChild?.isNone then .error (.noDefault n.id)
  else do
    let heads := n.conditionalChildren.map fun b => (b.node, some b.condition)
    return .decision (← armsOf walk merge heads seen) .done

/-- What stands between a node and its merge point. -/
def block (walk : Walk) (n : Node) (merge : NodeId) (seen : List NodeId) : Except Fault Row :=
  if n.conditionalChildren.isEmpty then parallel walk n.plainChildren merge seen
  else choice walk n merge seen

/-- The row from a node up to, but without, a stop. -/
def walk (w : Workflow) (m : MergePoints) : Nat → Walk
  | 0, id, _, _ => .error (.exhausted id)
  | bound + 1, id, stop, seen =>
      if id = stop then .ok .done
      else match w.node? id with
        | none => .error (.pastEnd id)
        | some n =>
            if seen.contains id then .error (.metTwice id)
            else do
              let merge := m.ofNode id
              let seen := seen ++ [id]
              let inner ← block (walk w m bound) n merge seen
              let next ← walk w m bound merge stop (seen ++ inner.ids)
              return .task n (inner.append next)

/-- The outline of a workflow: the block of its roots, and the row from where they merge. -/
def ofMergePoints (w : Workflow) (m : MergePoints) : Except Fault Row := do
  let walk := walk w m (w.size + 1)
  let merge := m.ofAll w.roots
  let opening ← parallel walk w.roots merge []
  let rest ← walk merge m.sink opening.ids
  let row := opening.append rest
  match (List.range w.size).find? fun id => !row.ids.contains id with
  | some id => throw (.missed id)
  | none => return row

end Outline
end BatchFlow

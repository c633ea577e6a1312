import BatchFlow.Workflow.Order

/-!
# Merge points

The branches that leave a node come together at the first node that every path from it passes, its
immediate post-dominator. A sink after all leaves, written as the id one past the last node, stands
for the end of the workflow, so there always is such a node.

The post-dominators of a node are the node itself and what the post-dominators of its children have
in common. The table is filled from the end of the topological order, so the children of a node are
in it before the node is.
-/

namespace BatchFlow

/-- The post-dominators of each node, along a topological order. -/
structure MergePoints where
  order : List NodeId
  /-- The id that stands for the end of the workflow. -/
  sink : NodeId
  table : List (NodeId × List NodeId)

namespace MergePoints

/-- The table's entry for a node. -/
def entry (table : List (NodeId × List NodeId)) (id : NodeId) : List NodeId :=
  (table.lookup id).getD []

/-- What the post-dominators of some nodes have in common. Without nodes, that is the sink. -/
def common (table : List (NodeId × List NodeId)) (sink : NodeId) : List NodeId → List NodeId
  | [] => [sink]
  | first :: rest =>
      (entry table first).filter fun c => rest.all fun n => (entry table n).contains c

/-- The table for nodes in topological order. -/
def tableOf (children : NodeId → List NodeId) (sink : NodeId) (order : List NodeId) :
    List (NodeId × List NodeId) :=
  order.foldr (fun id table => (id, id :: common table sink (children id)) :: table)
    [(sink, [sink])]

def ofOrder (w : Workflow) (order : List NodeId) : MergePoints where
  order
  sink := w.size
  table := tableOf w.childrenOf w.size order

/-- The place in the order; the sink comes after every node. -/
def rank (m : MergePoints) (id : NodeId) : Nat := m.order.idxOf id

/-- The candidate that comes first in the order, or the sink if none comes before it. -/
def nearest (m : MergePoints) (candidates : List NodeId) : NodeId :=
  candidates.foldl (fun best c => if m.rank c < m.rank best then c else best) m.sink

/-- Where the branches of a node come together. -/
def ofNode (m : MergePoints) (id : NodeId) : NodeId :=
  m.nearest ((entry m.table id).filter (· ≠ id))

/-- Where branches that start at these nodes come together. -/
def ofAll (m : MergePoints) (ids : List NodeId) : NodeId :=
  m.nearest (common m.table m.sink ids)

end MergePoints
end BatchFlow

import BatchFlow.Graph.Error
import BatchFlow.Workflow

/-!
# Topological order

Nodes are placed one at a time: of the nodes whose parents are all placed, the first in arena order
goes next. A node counts the edges from parents that are not placed yet, as an integer, so that a
count that fell below zero would show. Each step places one node, so as many steps as there are
nodes are enough; nodes that are left over lie on or behind a cycle.
-/

namespace BatchFlow
namespace Workflow

/-- How far the placing of nodes has come. -/
structure Placement where
  /-- For each node, the edges from parents that are not placed. -/
  waiting : List Int
  /-- The nodes that may be placed next, in arena order. -/
  ready : List NodeId
  placed : List NodeId := []

namespace Placement

/-- Adds a node to a list in arena order. -/
def insertSorted (id : NodeId) : List NodeId → List NodeId
  | [] => [id]
  | x :: rest => if id ≤ x then id :: x :: rest else x :: insertSorted id rest

/-- Takes note that one parent of a node has been placed. -/
def release (p : Placement) (child : NodeId) : Placement :=
  let waiting := p.waiting.modify child (· - 1)
  if waiting[child]? = some 0 then { p with waiting, ready := insertSorted child p.ready }
  else { p with waiting }

/-- Places the first ready node, if there is one. -/
def step (children : NodeId → List NodeId) (p : Placement) : Option Placement :=
  match p.ready with
  | [] => none
  | id :: rest =>
      some ((children id).foldl release { p with ready := rest, placed := p.placed ++ [id] })

/-- As many steps as the bound allows. -/
def run (children : NodeId → List NodeId) : Nat → Placement → Placement
  | 0, p => p
  | bound + 1, p =>
      match p.step children with
      | none => p
      | some next => run children bound next

end Placement

/-- The children of a node; none for an id outside of the workflow. -/
def childrenOf (w : Workflow) (id : NodeId) : List NodeId :=
  match w.node? id with
  | some n => n.children
  | none => []

/-- The name of a node; empty for an id outside of the workflow. -/
def nameOf (w : Workflow) (id : NodeId) : String :=
  match w.node? id with
  | some n => n.name
  | none => ""

/-- The placing of nodes before its first step. -/
def unplaced (w : Workflow) : Placement :=
  let waiting := w.nodes.map fun n => (n.parents.length : Int)
  { waiting, ready := (List.range w.size).filter fun i => waiting[i]? = some 0 }

/-- The nodes with every parent before its children and ties in arena order. -/
def topologicalOrder (w : Workflow) : Except GraphError (List NodeId) :=
  let final := Placement.run w.childrenOf w.size w.unplaced
  if final.placed.length < w.size then
    let stuck := (List.range w.size).find? fun i => final.waiting[i]?.any (0 < ·)
    .error (.cycle ((stuck.map w.nameOf).getD ""))
  else .ok final.placed

end Workflow
end BatchFlow

import BatchFlow.Outline.Layout

/-!
# Lowering

A workflow says which node follows which; its structured graph says how control flows. Lowering goes
through the outline: names are checked first, then the order of the nodes, then their nesting, and
the graph is made from the outline's edits.
-/

namespace BatchFlow
namespace Workflow

/-- Names that belong to the structural vertices. -/
def reservedNames : List String := [Graph.startName, Graph.finishName, Graph.killName]

/-- The names that the workflow gives, those of its handlers included. -/
def givenNames (w : Workflow) : List String :=
  w.nodes.flatMap fun n => n.name :: (n.handler.map Handler.name).toList

/-- The given names, if none of them is reserved. -/
def checkNames (w : Workflow) : Except GraphError (List String) :=
  match w.givenNames.find? reservedNames.contains with
  | some name => .error (.reservedName name)
  | none => .ok w.givenNames

/-- The outline of a workflow, over a topological order. -/
def outline (w : Workflow) : Except GraphError Row := do
  let order ← w.topologicalOrder
  (Outline.ofMergePoints w (.ofOrder w order)).mapError (·.toGraphError w)

end Workflow

/-- The structured graph of a workflow. -/
def Graph.ofWorkflow (w : Workflow) : Except GraphError Graph := do
  let taken ← w.checkNames
  let outline ← w.outline
  ({ name := w.name } : Graph).performAll (outline.edits taken)

end BatchFlow

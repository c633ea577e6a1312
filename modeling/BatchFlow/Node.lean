import BatchFlow.Action
import BatchFlow.Node.Id

/-!
# Nodes and error handlers

A node is one step of a dag: its action, the parents it declared, and the children that declared
it. The parent lists are fixed when the node is made; the child lists grow. A node never has
children with and without conditions at once, and at most one default child: `Node.check` refuses
what would break either rule.

An error handler is a detached step. Handlers are told apart by the serial number they get when
they are built, so two handlers with the same name and action may still be different.
-/

namespace BatchFlow

/-- A detached step that runs when an action fails. -/
structure Handler where
  serial : Nat
  name : String
  action : Action
  deriving DecidableEq

/-- What a builder knows about a node before it is placed in a dag. -/
structure NodeSpec where
  name : Option String
  plainParents : List NodeId
  conditionalParents : List Branch
  handler : Option Handler
  deriving DecidableEq

/-- A parent with the condition of the edge to it, if there is one. -/
structure Link where
  parent : NodeId
  condition : Option Condition
  deriving DecidableEq

/-- The edges that a node declares, the plain ones first. -/
def NodeSpec.links (s : NodeSpec) : List Link :=
  s.plainParents.map (⟨·, none⟩) ++ s.conditionalParents.map fun b => ⟨b.node, some b.condition⟩

/-- A step of a dag. -/
structure Node where
  id : NodeId
  name : String
  plainParents : List NodeId
  conditionalParents : List Branch
  plainChildren : List NodeId := []
  conditionalChildren : List Branch := []
  handler : Option Handler
  action : Action
  deriving DecidableEq

namespace Node

/-- All parents, the plain ones first. -/
def parents (n : Node) : List NodeId :=
  n.plainParents ++ n.conditionalParents.map Branch.node

/-- All children, the plain ones first. -/
def children (n : Node) : List NodeId :=
  n.plainChildren ++ n.conditionalChildren.map Branch.node

def defaultChild? (n : Node) : Option NodeId :=
  (n.conditionalChildren.find? fun b => b.condition.isDefault).map Branch.node

/-- Whether the node can take a child under a condition, or a plain one. -/
def check (n : Node) : Option Condition → Except BuildError Unit
  | none =>
      if n.conditionalChildren.isEmpty then .ok ()
      else .error (.mixedChildren n.name .plain .conditional)
  | some c =>
      if !n.plainChildren.isEmpty then .error (.mixedChildren n.name .conditional .plain)
      else if c.isDefault && n.defaultChild?.isSome then .error (.duplicateDefault n.name)
      else .ok ()

/-- Appends a child to the list that its condition calls for. -/
def addChild (n : Node) (child : NodeId) (condition : Option Condition) :
    Except BuildError Node := do
  n.check condition
  match condition with
  | none => return { n with plainChildren := n.plainChildren ++ [child] }
  | some c => return { n with conditionalChildren := n.conditionalChildren ++ [⟨child, c⟩] }

/-- The node under new ids. An edge whose other end has no new id is dropped. -/
def renumber (place : NodeId → Option NodeId) (id : NodeId) (n : Node) : Node :=
  let plain (ids : List NodeId) := ids.filterMap place
  let conditional (bs : List Branch) :=
    bs.filterMap fun b => (place b.node).map fun i => ⟨i, b.condition⟩
  { n with
    id
    plainParents := plain n.plainParents
    conditionalParents := conditional n.conditionalParents
    plainChildren := plain n.plainChildren
    conditionalChildren := conditional n.conditionalChildren }

end Node
end BatchFlow

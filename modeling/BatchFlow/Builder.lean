import BatchFlow.Dag

/-!
# Node builders

A builder holds what is known of a node so far: a write-once name, its parents, a write-once error
handler, and the draft of its action. Every operation on a builder is an edit, which either gives
the changed builder or an error; a builder is a value, so a refused edit leaves it as it was.

A builder is not used up: building twice makes two nodes, and it may build an error handler, too.
-/

namespace BatchFlow

/-- What every builder knows of its node, whatever the kind of action. -/
structure NodeDraft where
  name : WriteOnce String := {}
  plainParents : List NodeId := []
  conditionalParents : List Branch := []
  handler : WriteOnce Handler := {}
  deriving DecidableEq

namespace NodeDraft

inductive Edit where
  | name (text : String)
  | handler (handler : Handler)
  | noHandler
  /-- Adds a parent, under a condition if one is given. -/
  | parent (id : NodeId) (condition : Option Condition)
  | dropParent (id : NodeId)
  | clearParents
  deriving DecidableEq

/-- A draft that repeats a node. Its name and handler may be changed once more. -/
def ofNode (n : Node) : NodeDraft where
  name := .ofDefault n.name
  plainParents := n.plainParents
  conditionalParents := n.conditionalParents
  handler := .ofOption n.handler

/-- All parents, the plain ones first. -/
def parents (d : NodeDraft) : List NodeId :=
  d.plainParents ++ d.conditionalParents.map Branch.node

def hasParent (d : NodeDraft) (id : NodeId) : Bool := d.parents.contains id

def addParent (d : NodeDraft) (id : NodeId) (condition : Option Condition) :
    Except BuildError NodeDraft :=
  if d.hasParent id then .error (.duplicateParent id)
  else match condition with
    | none => .ok { d with plainParents := d.plainParents ++ [id] }
    | some c => .ok { d with conditionalParents := d.conditionalParents ++ [⟨id, c⟩] }

/-- Removes a parent from the list that holds it. -/
def removeParent (d : NodeDraft) (id : NodeId) : Except BuildError NodeDraft :=
  if d.plainParents.contains id then
    .ok { d with plainParents := d.plainParents.erase id }
  else if (d.conditionalParents.map Branch.node).contains id then
    .ok { d with conditionalParents := d.conditionalParents.eraseP fun b => b.node == id }
  else .error (.unknownParent id)

def apply (d : NodeDraft) : Edit → Except BuildError NodeDraft
  | .name text => return { d with name := ← d.name.set "name" text }
  | .handler h => return { d with handler := ← d.handler.set "error handler" h }
  | .noHandler => return { d with handler := ← d.handler.clear "error handler" }
  | .parent id condition => d.addParent id condition
  | .dropParent id => d.removeParent id
  | .clearParents => return { d with plainParents := [], conditionalParents := [] }

/-- What the draft says at this moment. -/
def spec (d : NodeDraft) : NodeSpec where
  name := d.name.value
  plainParents := d.plainParents
  conditionalParents := d.conditionalParents
  handler := d.handler.value

end NodeDraft

/-- A node under construction, with an action of a given kind. -/
structure Builder (k : Kind) where
  node : NodeDraft := {}
  draft : k.Draft

namespace Builder

variable {k : Kind}

/-- One operation on a builder. -/
inductive Edit (k : Kind) where
  | node (edit : NodeDraft.Edit)
  | action (edit : k.Edit)

/-- A new builder of a kind. -/
def new (k : Kind) : Builder k := { draft := k.draft }

/-- A builder without name, parents or handler whose action starts from existing settings. -/
def ofSettings (k : Kind) (s : k.Settings) : Builder k := { draft := k.draftOf s }

/-- A builder that repeats a node, if the node's action is of the builder's kind. -/
def ofNode (k : Kind) (n : Node) : Except BuildError (Builder k) :=
  match n.action.settingsAs? k with
  | some s => .ok { node := .ofNode n, draft := k.draftOf s }
  | none => .error (.actionKindMismatch n.name k.label n.action.kind.label)

def apply (b : Builder k) : Edit k → Except BuildError (Builder k)
  | .node e => return { b with node := ← b.node.apply e }
  | .action e => return { b with draft := ← k.applyEdit b.draft e }

/-- The action as it stands. -/
def action (b : Builder k) : Action := ⟨k, k.settingsOf b.draft⟩

def build (b : Builder k) (d : Dag) : Except BuildError (NodeId × Dag) :=
  d.insert b.node.spec b.action

/-- A handler with the builder's name and action. The serial number makes it differ from every
other handler. -/
def buildHandler (b : Builder k) (serial : Nat) : Except BuildError Handler :=
  match b.node.name.value with
  | none => .error (.missingName .handler)
  | some name =>
      if b.node.parents.isEmpty then .ok ⟨serial, name, b.action⟩
      else .error (.handlerWithParents name)

end Builder
end BatchFlow

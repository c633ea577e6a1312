import BatchFlow.Document
import BatchFlow.Document.Mappings
import BatchFlow.Document.Settings
import BatchFlow.Lowering

/-!
# Writing a graph as a document

The kill element comes first, then one element for each fork, join, decision and task in the order
of the graph. Decision joins leave no element: a transition into one goes on to the first vertex
behind it that is something else. An error handler becomes an action element of its own, right
before the first task that uses it, and leads to the kill element whatever happens.

Every name is claimed once, the name of the end included, so no two elements share one.
-/

namespace BatchFlow

namespace Graph

/-- The name of the first vertex, from a given one on, that is no decision join. A chain of decision
joins that is longer than the bound runs in a circle. -/
def passJoins (g : Graph) : Nat → Vertex → Except DocumentError String
  | 0, v => .error (.danglingVertex v.name)
  | bound + 1, v =>
      if v.role = .decisionJoin then
        match v.child? with
        | none => .error (.danglingVertex v.name)
        | some next => do g.passJoins bound (← (g.vertex next).mapError .graph)
      else .ok v.name

/-- The name that a transition to a vertex leads to. -/
def targetName (g : Graph) (id : VertexId) : Except DocumentError String := do
  g.passJoins (g.size + 1) (← (g.vertex id).mapError .graph)

end Graph

/-- What turns workflows and graphs into documents. -/
structure Translator where
  mappings : Mappings := .standard
  settings : Settings := {}

/-- A document in the making. -/
structure Emission where
  /-- The names that are claimed. -/
  names : List String := []
  /-- The handlers that have an element. -/
  handlers : List Handler := []
  elements : List Element := []

namespace Emission

def claim (e : Emission) (name : String) : Except DocumentError Emission :=
  if e.names.contains name then .error (.duplicateElementName name)
  else .ok { e with names := name :: e.names }

/-- Appends an element, whose name is claimed elsewhere. -/
def push (e : Emission) (element : Element) : Emission :=
  { e with elements := e.elements ++ [element] }

/-- Claims the name of an element and appends the element. -/
def place (e : Emission) (element : Element) : Except DocumentError Emission := do
  return (← e.claim element.name).push element

/-- Adds the element of a handler, unless the handler has one. -/
def placeHandler (e : Emission) (m : Mappings) (kill : String) (h : Handler) :
    Except DocumentError Emission :=
  if e.handlers.contains h then .ok e
  else do
    let e ← e.claim h.name
    let payload ← m.map h.name h.action
    let e := e.push ⟨h.name, .action payload kill kill⟩
    return { e with handlers := e.handlers ++ [h] }

/-- The ways out of a decision, as its element has them. -/
def decisionBody (g : Graph) (v : Vertex) : Except DocumentError Element.Body := do
  let ways ← v.arcs.mapM fun a => do
    return (a.condition.bind Condition.label?, ← g.targetName a.target)
  let cases := ways.filterMap fun (label, target) =>
    label.map fun condition => { target, condition : Case }
  match ways.findSome? fun (label, target) => if label.isNone then some target else none with
  | some default => return .decision cases default
  | none => throw (.graph (.missingDefault v.name))

def forkBody (g : Graph) (v : Vertex) : Except DocumentError Element.Body := do
  if v.arcs.isEmpty then throw (.danglingVertex v.name)
  return .fork (← v.children.mapM g.targetName)

def joinBody (g : Graph) (v : Vertex) : Except DocumentError Element.Body :=
  match v.child? with
  | some next => do return .join (← g.targetName next)
  | none => .error (.danglingVertex v.name)

/-- Adds the elements that a vertex calls for. -/
def placeVertex (t : Translator) (g : Graph) (finish kill : String) (e : Emission) (v : Vertex) :
    Except DocumentError Emission :=
  match v.role with
  | .start | .finish | .kill | .decisionJoin => .ok e
  | .decision => do e.place ⟨v.name, ← decisionBody g v⟩
  | .fork => do e.place ⟨v.name, ← forkBody g v⟩
  | .join => do e.place ⟨v.name, ← joinBody g v⟩
  | .task task => do
      let payload ← t.mappings.map v.name task.action
      let ok ← match v.child? with
        | some next => g.targetName next
        | none => pure finish
      let (e, error) ← match task.handler with
        | some h => do pure (← e.placeHandler t.mappings kill h, h.name)
        | none => pure (e, kill)
      e.place ⟨v.name, .action payload ok error⟩

end Emission

namespace Document

/-- A structural vertex of a graph, which has to be there. -/
def structural (g : Graph) (id : Option VertexId) (name : String) : Except DocumentError Vertex :=
  match id with
  | some id => (g.vertex id).mapError .graph
  | none => .error (.graph (.missingVertex name))

/-- The document of a graph. An incomplete graph is refused with its first problem. -/
def ofGraph (t : Translator) (g : Graph) : Except DocumentError Document := do
  match g.problems with
  | problem :: _ => throw (.graph problem)
  | [] => pure ()
  let start ← structural g g.start Graph.startName
  let finish ← structural g g.finish Graph.finishName
  let kill ← structural g g.kill Graph.killName
  let e ← ({} : Emission).claim finish.name
  let e ← e.place ⟨kill.name, .kill t.settings.killMessage⟩
  let first ← match start.child? with
    | some next => g.targetName next
    | none => throw (.danglingVertex start.name)
  let e ← g.vertices.foldlM (Emission.placeVertex t g finish.name kill.name) e
  return { name := g.name, start := first, elements := e.elements, finish := finish.name }

/-- The document of a workflow: that of its graph, with the workflow's declarations. -/
def ofWorkflow (t : Translator) (w : Workflow) : Except DocumentError Document := do
  let g ← (Graph.ofWorkflow w).mapError .graph
  let d ← ofGraph t g
  return { d with
    parameters := w.parameters
    global := w.global
    credentials := w.credentials }

/-- The text of a workflow's document, with the standard translator. -/
def serialize (w : Workflow) : Except DocumentError String := do
  return (← ofWorkflow {} w).render .indented

end Document
end BatchFlow

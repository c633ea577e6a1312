import BatchFlow.Graph.Vertex

/-!
# Structured graphs

An arena of vertices in which control flow is explicit: execution begins at the one start, parallel
branches open with a fork and close with a join, conditional branches open with a decision and close
with a decision join, and success is the one end.

A graph is made by edits. Adding a vertex always succeeds; connecting two checks both ends before
either is changed, so a refused edit leaves the graph as it was.
-/

namespace BatchFlow

/-- An arena of vertices, with the places of the three that occur at most once. -/
structure Graph where
  /-- The name of the workflow. -/
  name : String := ""
  vertices : List Vertex := []
  start : Option VertexId := none
  finish : Option VertexId := none
  kill : Option VertexId := none
  deriving DecidableEq

namespace Graph

def startName : String := "start"

def finishName : String := "end"

def killName : String := "kill"

def size (g : Graph) : Nat := g.vertices.length

def get? (g : Graph) (id : VertexId) : Option Vertex := g.vertices[id]?

/-- The vertex with an id, or an error that names the id. -/
def vertex (g : Graph) (id : VertexId) : Except GraphError Vertex :=
  match g.get? id with
  | some v => .ok v
  | none => .error (.unknownVertex id)

/-- The first vertex with a name. -/
def findByName? (g : Graph) (name : String) : Option Vertex :=
  g.vertices.find? fun v => v.name == name

/-! ### Edits -/

/-- Appends a vertex without edges. -/
def push (g : Graph) (name : String) (role : Role) : Graph :=
  { g with vertices := g.vertices ++ [{ id := g.size, name, role }] }

/-- Adds the start, unless the graph has one. -/
def addStart (g : Graph) : Graph :=
  match g.start with
  | some _ => g
  | none => { g.push startName .start with start := some g.size }

/-- Adds the end, unless the graph has one. -/
def addFinish (g : Graph) : Graph :=
  match g.finish with
  | some _ => g
  | none => { g.push finishName .finish with finish := some g.size }

/-- Adds the kill vertex, unless the graph has one. -/
def addKill (g : Graph) : Graph :=
  match g.kill with
  | some _ => g
  | none => { g.push killName .kill with kill := some g.size }

/-- Stores an edge at both of its ends. -/
def link (g : Graph) (parent child : VertexId) (condition : Option Condition) :
    Except GraphError Graph := do
  let source ← (← g.vertex parent).attach ⟨child, condition⟩
  return { g with
    vertices := (g.vertices.set parent source).modify child fun v =>
      { v with parents := v.parents ++ [parent] } }

/-- Makes a vertex a child of another, under a condition if one is given. -/
def connect (g : Graph) (parent child : VertexId) (condition : Option Condition) :
    Except GraphError Graph := do
  (← g.vertex parent).checkChild condition
  (← g.vertex child).checkParent
  g.link parent child condition

/-- One operation on a graph. -/
inductive Edit where
  | addStart
  | addFinish
  | addKill
  | addDecision (name : String)
  | addFork (name : String)
  | addJoin (name : String)
  | addDecisionJoin (name : String)
  | addTask (name : String) (task : Task)
  | connect (parent child : VertexId) (condition : Option Condition)
  deriving DecidableEq

def perform (g : Graph) : Edit → Except GraphError Graph
  | .addStart => .ok g.addStart
  | .addFinish => .ok g.addFinish
  | .addKill => .ok g.addKill
  | .addDecision name => .ok (g.push name .decision)
  | .addFork name => .ok (g.push name .fork)
  | .addJoin name => .ok (g.push name .join)
  | .addDecisionJoin name => .ok (g.push name .decisionJoin)
  | .addTask name task => .ok (g.push name (.task task))
  | .connect parent child condition => g.connect parent child condition

/-- The id of the vertex that an edit adds or finds; none for an edge. -/
def added? (g : Graph) : Edit → Option VertexId
  | .addStart => some (g.start.getD g.size)
  | .addFinish => some (g.finish.getD g.size)
  | .addKill => some (g.kill.getD g.size)
  | .connect .. => none
  | _ => some g.size

/-- Edits in a row, up to the first that is refused. -/
def performAll (g : Graph) (edits : List Edit) : Except GraphError Graph :=
  edits.foldlM perform g

/-! ### Validation -/

/-- What keeps a graph from being complete: a structural vertex is missing, or a decision has no
default. The edits see to everything else. -/
def problems (g : Graph) : List GraphError :=
  let missing (present : Option VertexId) (name : String) : List GraphError :=
    if present.isSome then [] else [.missingVertex name]
  missing g.start startName ++ missing g.finish finishName ++ missing g.kill killName ++
    g.vertices.filterMap fun v =>
      if v.role = .decision && !v.hasDefault then some (.missingDefault v.name) else none

end Graph
end BatchFlow

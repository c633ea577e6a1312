import BatchFlow.Graph.Error
import BatchFlow.Node

/-!
# Vertices of a structured graph

A vertex has a role, and the role says how many edges it takes:

| role          | parents     | children                             |
|---------------|-------------|--------------------------------------|
| start         | none        | at most one                          |
| end           | at most one | none                                 |
| kill          | none        | none                                 |
| decision      | at most one | conditional ones, at most one default |
| fork          | at most one | any number                           |
| join          | any number  | at most one                          |
| decision join | any number  | at most one                          |
| task          | at most one | at most one                          |
-/

namespace BatchFlow

/-- A step of a workflow, as a graph carries it. -/
structure Task where
  /-- The id of the step in its workflow. -/
  source : NodeId
  action : Action
  handler : Option Handler
  deriving DecidableEq

/-- What a vertex is for. -/
inductive Role where
  | start
  /-- The successful end. -/
  | finish
  | kill
  | decision
  | fork
  | join
  /-- Where the branches of a decision meet again. -/
  | decisionJoin
  | task (task : Task)
  deriving DecidableEq

namespace Role

def label : Role → String
  | start => "start"
  | finish => "end"
  | kill => "kill"
  | decision => "decision"
  | fork => "fork"
  | join => "join"
  | decisionJoin => "decision join"
  | task _ => "action"

/-- How many parents a vertex may have, if there is a limit. -/
def maxParents? : Role → Option Nat
  | start | kill => some 0
  | finish | decision | fork | task _ => some 1
  | join | decisionJoin => none

/-- Whether a vertex has room for one plain child and no more. -/
def isSequential : Role → Bool
  | start | join | decisionJoin | task _ => true
  | finish | kill | decision | fork => false

end Role

/-- An edge as its source holds it. Only the edges out of a decision have conditions. -/
structure Arc where
  target : VertexId
  condition : Option Condition
  deriving DecidableEq

structure Vertex where
  id : VertexId
  name : String
  role : Role
  /-- The sources of incoming edges, in the order they were linked. -/
  parents : List VertexId := []
  /-- The outgoing edges, in the order they were linked. -/
  arcs : List Arc := []
  deriving DecidableEq

namespace Vertex

def children (v : Vertex) : List VertexId := v.arcs.map Arc.target

/-- The one child of a start, join, decision join or task. -/
def child? (v : Vertex) : Option VertexId :=
  if v.role.isSequential then v.children.head? else none

def hasDefault (v : Vertex) : Bool :=
  v.arcs.any fun a => a.condition.any Condition.isDefault

/-- Whether the vertex can take a child, under a condition if one is given. -/
def checkChild (v : Vertex) (condition : Option Condition) : Except GraphError Unit :=
  match v.role, condition with
  | .finish, _ | .kill, _ => .error (.childNotAllowed v.name v.role.label)
  | .decision, none => .error (.mixedChildren v.name)
  | .decision, some c =>
      if c.isDefault && v.hasDefault then .error (.multipleDefaults v.name) else .ok ()
  | _, some _ => .error (.mixedChildren v.name)
  | .fork, none => .ok ()
  | _, none => if v.arcs.isEmpty then .ok () else .error (.multipleChildren v.name)

/-- Whether the vertex can take one more parent. -/
def checkParent (v : Vertex) : Except GraphError Unit :=
  match v.role.maxParents? with
  | none => .ok ()
  | some 0 => .error (.parentNotAllowed v.name v.role.label)
  | some max => if v.parents.length < max then .ok () else .error (.multipleParents v.name)

/-- Stores an outgoing edge. One that the role has no room for is refused. -/
def attach (v : Vertex) (a : Arc) : Except GraphError Vertex :=
  match v.role, a.condition with
  | .finish, _ | .kill, _ => .error (.childNotAllowed v.name v.role.label)
  | .decision, some _ | .fork, none => .ok { v with arcs := v.arcs ++ [a] }
  | .decision, none | _, some _ => .error (.mixedChildren v.name)
  | _, none => .ok { v with arcs := [a] }

end Vertex
end BatchFlow

/-!
# Errors of structured graphs

What an edit of a graph, its validation, or the lowering of a workflow can run into.
-/

namespace BatchFlow

/-- The place of a vertex in its graph. -/
abbrev VertexId := Nat

/-- The text that names a vertex in messages. -/
def vertexText (id : VertexId) : String := "graph_node_" ++ toString id

inductive GraphError where
  /-- Plain and conditional children at one vertex. -/
  | mixedChildren (vertex : String)
  | multipleParents (vertex : String)
  | multipleChildren (vertex : String)
  | multipleDefaults (vertex : String)
  | childNotAllowed (vertex role : String)
  | parentNotAllowed (vertex role : String)
  | missingDefault (vertex : String)
  | cycle (node : String)
  /-- A node that branches reach without having merged. -/
  | unstructuredBranch (node : String)
  | reservedName (name : String)
  /-- No start, end or kill vertex. -/
  | missingVertex (name : String)
  | unknownVertex (id : VertexId)
  deriving DecidableEq

def GraphError.message : GraphError → String
  | mixedChildren v => "node '" ++ v ++ "' cannot mix children with and without conditions"
  | multipleParents v => "node '" ++ v ++ "' cannot have more than one parent"
  | multipleChildren v => "node '" ++ v ++ "' cannot have more than one child"
  | multipleDefaults v => "decision '" ++ v ++ "' already has a default branch"
  | childNotAllowed v role => role ++ " node '" ++ v ++ "' cannot have children"
  | parentNotAllowed v role => role ++ " node '" ++ v ++ "' cannot have parents"
  | missingDefault v => "node '" ++ v ++ "' has conditional children but no default branch"
  | cycle node => "cycle detected through node '" ++ node ++ "'"
  | unstructuredBranch node =>
      "node '" ++ node ++ "' is reached from more than one unmerged branch"
  | reservedName name => "node name '" ++ name ++ "' is reserved"
  | missingVertex name => "graph has no '" ++ name ++ "' node"
  | unknownVertex id => "node " ++ vertexText id ++ " does not belong to this graph"

end BatchFlow

import BatchFlow.Graph.Error

/-!
# Errors of writing documents
-/

namespace BatchFlow

inductive DocumentError where
  /-- The action's kind has no mapping. -/
  | unrecognizedActionKind (node kind : String)
  /-- The mapping for the kind gave no payload. -/
  | emptyMapping (node kind : String)
  /-- The fields of an action do not fit its payload. -/
  | fieldMapping (kind : String)
  | duplicateElementName (name : String)
  /-- The vertex has no target for a transition. -/
  | danglingVertex (name : String)
  | graph (error : GraphError)
  deriving DecidableEq

def DocumentError.message : DocumentError → String
  | unrecognizedActionKind node kind =>
      "node '" ++ node ++ "' holds a " ++ kind ++ " action, which has no registered mapping"
  | emptyMapping node kind =>
      "mapping for the " ++ kind ++ " action of node '" ++ node ++ "' produced no payload"
  | fieldMapping kind => "cannot copy fields of " ++ kind ++ " action"
  | duplicateElementName name => "element name '" ++ name ++ "' is used more than once"
  | danglingVertex name => "node '" ++ name ++ "' has no target to transition to"
  | graph error => error.message

end BatchFlow

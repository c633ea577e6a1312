/-!
# Node ids and conditions

A node is named by its place in the arena that holds it, so ids are natural numbers and comparing
ids compares places.
-/

namespace BatchFlow

/-- The place of a node in its dag. -/
abbrev NodeId := Nat

/-- The text that names a node in messages. -/
def nodeText (id : NodeId) : String := "node_" ++ toString id

/-- When a conditional edge is taken. -/
inductive Condition where
  /-- The branch with this label, kept verbatim. -/
  | labeled (label : String)
  /-- The branch for when no label of the node holds. -/
  | otherwise
  deriving DecidableEq, Inhabited

namespace Condition

def isDefault : Condition → Bool
  | labeled _ => false
  | otherwise => true

def label? : Condition → Option String
  | labeled label => some label
  | otherwise => none

end Condition

/-- One end of a conditional edge. -/
structure Branch where
  node : NodeId
  condition : Condition
  deriving DecidableEq, Inhabited

end BatchFlow

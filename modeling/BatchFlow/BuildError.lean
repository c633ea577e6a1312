import BatchFlow.Node.Id

/-!
# Errors of building

What can go wrong while nodes, error handlers and workflows are built. Each error is a cause with
the data that names it; the wording is `BuildError.message`.
-/

namespace BatchFlow

/-- What a builder without a name was to become. -/
inductive Product where
  | node
  | handler
  | workflow
  deriving DecidableEq

def Product.text : Product → String
  | node => "node"
  | handler => "error handler"
  | workflow => "workflow"

/-- Whether an edge carries a condition. -/
inductive EdgeSort where
  | plain
  | conditional
  deriving DecidableEq

/-- Reads before "a condition". -/
def EdgeSort.preposition : EdgeSort → String
  | plain => "without"
  | conditional => "with"

inductive BuildError where
  /-- A write-once field was modified before. -/
  | alreadySet (field : String)
  | duplicateParent (parent : NodeId)
  | unknownParent (parent : NodeId)
  | unknownNode (id : NodeId)
  | missingName (product : Product)
  /-- The parent already has children of the other sort. -/
  | mixedChildren (parent : String) (attempted existing : EdgeSort)
  | duplicateDefault (parent : String)
  | actionKindMismatch (node expected found : String)
  | handlerWithParents (name : String)
  | duplicateName (name workflow : String)
  deriving DecidableEq

/-- The configuration property with this key, as an error names it. -/
def propertyText (key : String) : String := "configuration property '" ++ key ++ "'"

def BuildError.message : BuildError → String
  | alreadySet field => field ++ " has already been set"
  | duplicateParent parent =>
      "trying to add a parent that is already a parent of this node: " ++ nodeText parent
  | unknownParent parent => "trying to remove a nonexistent parent: " ++ nodeText parent
  | unknownNode id => "node " ++ nodeText id ++ " does not belong to this dag"
  | missingName product => "cannot build " ++ product.text ++ " without a name"
  | mixedChildren parent attempted existing =>
      "node '" ++ parent ++ "' cannot take a child " ++ attempted.preposition ++
        " a condition: it already has children " ++ existing.preposition ++ " a condition"
  | duplicateDefault parent => "node '" ++ parent ++ "' already has a default conditional child"
  | actionKindMismatch node expected found =>
      "node '" ++ node ++ "' holds a " ++ found ++ " action, expected a " ++ expected ++ " action"
  | handlerWithParents name => "error handler '" ++ name ++ "' cannot have parents"
  | duplicateName name workflow =>
      "Duplicate name '" ++ name ++ "' found in workflow '" ++ workflow ++ "'"

end BatchFlow

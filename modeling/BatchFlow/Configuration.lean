import BatchFlow.Dict
import BatchFlow.WriteOnce

/-!
# Configuration

Key/value properties of an action. While a configuration is being built, every key is a write-once
field of its own: the first set or removal of a key decides it. A removed key keeps its place in
the draft, so that it cannot be written again.
-/

namespace BatchFlow

/-- Properties in insertion order. -/
abbrev Configuration := Dict String

namespace Configuration

/-- A configuration under construction. -/
abbrev Draft := Dict (WriteOnce String)

inductive Edit where
  | set (key value : String)
  | remove (key : String)
  deriving DecidableEq

def Edit.key : Edit → String
  | set key _ => key
  | remove key => key

def Edit.value? : Edit → Option String
  | set _ value => some value
  | remove _ => none

namespace Draft

/-- A draft whose properties default to existing ones. -/
def ofConfiguration (existing : Configuration) : Draft :=
  existing.map WriteOnce.ofDefault

def apply (d : Draft) (e : Edit) : Except BuildError Draft := do
  let field := (d.get? e.key).getD {}
  return d.insert e.key (← field.modify (propertyText e.key) e.value?)

/-- The properties that hold a value. -/
def build (d : Draft) : Configuration :=
  (d.map WriteOnce.value).present

end Draft
end Configuration
end BatchFlow

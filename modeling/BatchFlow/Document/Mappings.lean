import BatchFlow.Action
import BatchFlow.Document.Error
import BatchFlow.Document.Payload

/-!
# Mapping actions to payloads

Which payload an action gets is looked up by its kind. The built-in kinds copy their fields over by
way of JSON: the full form of the settings is read as the payload, so a field goes to the field of
the same key. Any kind can be given another mapping, which then takes the place of the first.
-/

namespace BatchFlow

/-- The payload for an action; none if the mapping has nothing to offer. -/
abbrev Mapping := Action → Except DocumentError (Option Payload)

/-- One mapping to a kind. -/
structure Mappings where
  entries : List (Kind × Mapping) := []

namespace Mappings

/-- Reads the JSON form of an action as a payload. -/
def copyFields {α : Type} [Json.Form α] (wrap : α → Payload) : Mapping := fun action =>
  match action.toJson?.bind Json.Form.ofJson? with
  | some body => .ok (some (wrap body))
  | none => .error (.fieldMapping action.kind.label)

/-- Takes the JSON form of an action for its body. -/
def serialized : Mapping := fun action =>
  match action.toJson? with
  | some body => .ok (some (.other action.kind.label body))
  | none => .error (.fieldMapping action.kind.label)

def empty : Mappings := {}

/-- Gives a kind a mapping, in place of any that it had. -/
def register (m : Mappings) (kind : Kind) (mapping : Mapping) : Mappings :=
  ⟨(kind, mapping) :: m.entries.filter fun e => e.1 ≠ kind⟩

/-- The mappings of the built-in kinds. -/
def standard : Mappings :=
  empty
    |>.register .mapReduce (copyFields .mapReduce)
    |>.register .shell (copyFields .shell)
    |>.register .fileSystem (copyFields .fileSystem)
    |>.register .subWorkflow (copyFields .subWorkflow)
    |>.register .email (copyFields .email)

def find? (m : Mappings) (kind : Kind) : Option Mapping :=
  m.entries.lookup kind

def contains (m : Mappings) (kind : Kind) : Bool := (m.find? kind).isSome

def size (m : Mappings) : Nat := m.entries.length

/-- The payload for the action of a named node. -/
def map (m : Mappings) (node : String) (action : Action) : Except DocumentError Payload :=
  match m.find? action.kind with
  | none => .error (.unrecognizedActionKind node action.kind.label)
  | some mapping => do
      match ← mapping action with
      | some payload => return payload
      | none => throw (.emptyMapping node action.kind.label)

end Mappings
end BatchFlow

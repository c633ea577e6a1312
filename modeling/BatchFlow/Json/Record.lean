import BatchFlow.Dict
import BatchFlow.Json.Printer
import BatchFlow.Json.Reader

/-!
# Records as JSON

A record is written as an object with its members in a fixed order; a member that says nothing
(an absent option, an empty list, a false flag) may be left out. It is read from an object, in any
order of members, or from an array that gives the members by position.

Reading converts nothing: a text is a string, a flag a boolean, and only an optional member may be
null. A member that is given twice is refused. A closed record refuses keys it does not know; any
other record passes over them.
-/

namespace BatchFlow
namespace Json

/-- The members of a record, at most one to a key. -/
abbrev Fields := List (String × Json)

/-! ### Writing -/

def ofTexts (texts : List String) : Json := arr (texts.map str)

def ofDict (d : Dict String) : Json := obj (d.entries.map fun e => (e.1, str e.2))

def ofOption {α : Type} (write : α → Json) : Option α → Json
  | none => null
  | some a => write a

/-- A member that is left out when it is absent. -/
def optional {α : Type} (key : String) (write : α → Json) : Option α → Fields
  | none => []
  | some a => [(key, write a)]

/-- A list that is left out when it is empty. -/
def listed {α : Type} (key : String) (write : List α → Json) : List α → Fields
  | [] => []
  | items => [(key, write items)]

/-- A dictionary that is left out when it is empty. -/
def keyed (key : String) (d : Dict String) : Fields :=
  if d.isEmpty then [] else [(key, ofDict d)]

/-- A flag that is left out when it is false. -/
def flagged (key : String) : Bool → Fields
  | false => []
  | true => [(key, bool true)]

/-! ### Reading -/

def asText? : Json → Option String
  | str text => some text
  | _ => none

def asFlag? : Json → Option Bool
  | bool b => some b
  | _ => none

def asList? {α : Type} (read : Json → Option α) : Json → Option (List α)
  | arr items => items.mapM read
  | _ => none

/-- Of equal keys the first gives the place and the last the value. -/
def asDict? : Json → Option (Dict String)
  | obj members => (members.mapM fun m => (asText? m.2).map (m.1, ·)).map Dict.ofList
  | _ => none

def asOption? {α : Type} (read : Json → Option α) : Json → Option (Option α)
  | null => some none
  | v => (read v).map some

/-- The members that a value gives to a record with these keys. -/
def fields? (keys : List String) (closed : Bool) : Json → Option Fields
  | obj members =>
      let known := members.filter fun m => keys.contains m.1
      if closed && members.any (fun m => !keys.contains m.1) then none
      else if (known.map Prod.fst).Nodup then some known
      else none
  | arr items => if items.length ≤ keys.length then some (keys.zip items) else none
  | _ => none

/-- A member that has to be given. -/
def required {α : Type} (key : String) (read : Json → Option α) (fields : Fields) : Option α :=
  (fields.lookup key).bind read

/-- A member that may be left out. -/
def defaulted {α : Type} (key : String) (read : Json → Option α) (default : α) (fields : Fields) :
    Option α :=
  match fields.lookup key with
  | none => some default
  | some v => read v

/-- A record with a JSON form. -/
class Form (α : Type) where
  toJson : α → Json
  ofJson? : Json → Option α
  /-- Whether a member of a text is read; the other members are skimmed. -/
  keeps : String → Bool

/-- The record that a JSON text gives. -/
def parse? (α : Type) [Form α] (text : String) : Option α :=
  (readKeeping? (Form.keeps α) text).bind Form.ofJson?

end Json
end BatchFlow

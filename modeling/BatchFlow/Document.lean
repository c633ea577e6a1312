import BatchFlow.Document.Payload
import BatchFlow.Workflow.Declarations

/-!
# Workflow documents

A document is a flat list of named elements that refer to each other by name. Each action names
where to go on success and where on failure. The JSON form keeps the order of elements, cases and
paths; the type of an element comes first in it.
-/

namespace BatchFlow

/-- A labeled way out of a decision. -/
structure Case where
  target : String
  condition : String
  deriving DecidableEq

/-- What an element does, beside having a name. -/
inductive Element.Body where
  | decision (cases : List Case) (default : String)
  | fork (paths : List String)
  | join (target : String)
  | kill (message : String)
  | action (payload : Payload) (ok error : String)
  deriving DecidableEq

structure Element where
  name : String
  body : Element.Body
  deriving DecidableEq

structure Document where
  name : String
  parameters : List Parameter := []
  global : Option Global := none
  credentials : List Credential := []
  /-- The name of the first element. -/
  start : String
  elements : List Element
  /-- The name of the successful end, which is no element. -/
  finish : String
  deriving DecidableEq

open Json

namespace Element

def typeName (e : Element) : String :=
  match e.body with
  | .decision .. => "decision"
  | .fork .. => "fork"
  | .join .. => "join"
  | .kill .. => "kill"
  | .action .. => "action"

def toJson (e : Element) : Json :=
  obj ([("type", str e.typeName), ("name", str e.name)] ++
    match e.body with
    | .decision cases default =>
        [("switch", obj [
          ("cases", arr (cases.map fun c =>
            obj [("to", str c.target), ("condition", str c.condition)])),
          ("default", obj [("to", str default)])])]
    | .fork paths => [("paths", arr (paths.map fun p => obj [("start", str p)]))]
    | .join target => [("to", str target)]
    | .kill message => [("message", str message)]
    | .action payload ok error => [payload.toMember, ("ok", str ok), ("error", str error)])

/-- The payload and the transitions, if the element is an action. -/
def action? (e : Element) : Option (Payload × String × String) :=
  match e.body with
  | .action payload ok error => some (payload, ok, error)
  | _ => none

/-- The message, if the element is a kill element. -/
def killMessage? (e : Element) : Option String :=
  match e.body with
  | .kill message => some message
  | _ => none

end Element

namespace Document

/-- The first element with a name. -/
def element? (d : Document) (name : String) : Option Element :=
  d.elements.find? fun e => e.name == name

/-- The action elements, each with its name. -/
def actions (d : Document) : List (String × Payload × String × String) :=
  d.elements.filterMap fun e => e.action?.map (e.name, ·)

/-- The first action element with a name. -/
def action? (d : Document) (name : String) : Option (Payload × String × String) :=
  d.actions.lookup name

/-- The kill elements, each with its message. -/
def kills (d : Document) : List (String × String) :=
  d.elements.filterMap fun e => e.killMessage?.map (e.name, ·)

def toJson (d : Document) : Json :=
  obj ([("name", str d.name)] ++
    listed "parameters" (fun ps => arr (ps.map Form.toJson)) d.parameters ++
    optional "global" Form.toJson d.global ++
    listed "credentials" (fun cs => arr (cs.map Form.toJson)) d.credentials ++
    [("start", obj [("to", str d.start)]), ("elements", arr (d.elements.map Element.toJson)),
      ("end", obj [("name", str d.finish)])])

def render (layout : Layout) (d : Document) : String := d.toJson.render layout

end Document
end BatchFlow

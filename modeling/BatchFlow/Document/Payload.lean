import BatchFlow.Dict
import BatchFlow.Json.Record

/-!
# Payloads

The bodies of action elements, one form for each built-in kind and a free form for any other. What
is absent, empty or off is left out of the JSON, except that an email always lists its recipients
and a file-system body its operations.

Payloads are closed records: a key that they do not know is an error. A file-system step is told
apart by its `op`, which may stand anywhere among the members; other keys that a step does not know
are passed over.
-/

namespace BatchFlow

open Json

/-- Paths to delete and to create before a job starts. -/
structure PreparePayload where
  deletes : List String := []
  mkdirs : List String := []
  deriving DecidableEq

namespace PreparePayload

def keys : List String := ["deletes", "mkdirs"]

instance : Form PreparePayload where
  toJson p := obj (listed "deletes" ofTexts p.deletes ++ listed "mkdirs" ofTexts p.mkdirs)
  ofJson? j := do
    let given ← fields? keys true j
    return { deletes := ← defaulted "deletes" (asList? asText?) [] given
             mkdirs := ← defaulted "mkdirs" (asList? asText?) [] given }
  keeps _ := true

end PreparePayload

structure MapReducePayload where
  jobTracker : Option String := none
  nameNode : Option String := none
  prepare : Option PreparePayload := none
  jobXmls : List String := []
  configuration : Dict String := {}
  configClass : Option String := none
  files : List String := []
  archives : List String := []
  deriving DecidableEq

namespace MapReducePayload

def keys : List String :=
  ["job-tracker", "name-node", "prepare", "job-xmls", "configuration", "config-class", "files",
    "archives"]

instance : Form MapReducePayload where
  toJson p := obj (optional "job-tracker" str p.jobTracker ++
    optional "name-node" str p.nameNode ++ optional "prepare" Form.toJson p.prepare ++
    listed "job-xmls" ofTexts p.jobXmls ++ keyed "configuration" p.configuration ++
    optional "config-class" str p.configClass ++ listed "files" ofTexts p.files ++
    listed "archives" ofTexts p.archives)
  ofJson? j := do
    let given ← fields? keys true j
    return { jobTracker := ← defaulted "job-tracker" (asOption? asText?) none given
             nameNode := ← defaulted "name-node" (asOption? asText?) none given
             prepare := ← defaulted "prepare" (asOption? Form.ofJson?) none given
             jobXmls := ← defaulted "job-xmls" (asList? asText?) [] given
             configuration := ← defaulted "configuration" asDict? {} given
             configClass := ← defaulted "config-class" (asOption? asText?) none given
             files := ← defaulted "files" (asList? asText?) [] given
             archives := ← defaulted "archives" (asList? asText?) [] given }
  keeps _ := true

end MapReducePayload

structure ShellPayload where
  jobTracker : Option String := none
  nameNode : Option String := none
  prepare : Option PreparePayload := none
  configuration : Dict String := {}
  exec : Option String := none
  arguments : List String := []
  environmentVariables : List String := []
  files : List String := []
  archives : List String := []
  captureOutput : Bool := false
  deriving DecidableEq

namespace ShellPayload

def keys : List String :=
  ["job-tracker", "name-node", "prepare", "configuration", "exec", "arguments",
    "environment-variables", "files", "archives", "capture-output"]

instance : Form ShellPayload where
  toJson p := obj (optional "job-tracker" str p.jobTracker ++
    optional "name-node" str p.nameNode ++ optional "prepare" Form.toJson p.prepare ++
    keyed "configuration" p.configuration ++ optional "exec" str p.exec ++
    listed "arguments" ofTexts p.arguments ++
    listed "environment-variables" ofTexts p.environmentVariables ++
    listed "files" ofTexts p.files ++ listed "archives" ofTexts p.archives ++
    flagged "capture-output" p.captureOutput)
  ofJson? j := do
    let given ← fields? keys true j
    return { jobTracker := ← defaulted "job-tracker" (asOption? asText?) none given
             nameNode := ← defaulted "name-node" (asOption? asText?) none given
             prepare := ← defaulted "prepare" (asOption? Form.ofJson?) none given
             configuration := ← defaulted "configuration" asDict? {} given
             exec := ← defaulted "exec" (asOption? asText?) none given
             arguments := ← defaulted "arguments" (asList? asText?) [] given
             environmentVariables :=
               ← defaulted "environment-variables" (asList? asText?) [] given
             files := ← defaulted "files" (asList? asText?) [] given
             archives := ← defaulted "archives" (asList? asText?) [] given
             captureOutput := ← defaulted "capture-output" asFlag? false given }
  keeps _ := true

end ShellPayload

/-- One step of a file-system body. -/
inductive FileStep where
  | delete (path : String) (skipTrash : Bool)
  | mkdir (path : String)
  | move (source target : String)
  | chmod (path permissions : String) (dirFiles recursive : Bool)
  | touchz (path : String)
  deriving DecidableEq

namespace FileStep

/-- The tag of a step and what is left of the value without it. In an array the tag comes first. -/
def tagged? : Json → Option (String × Json)
  | obj members =>
      match members.filter fun m => m.1 == "op" with
      | [(_, str tag)] => some (tag, obj (members.filter fun m => m.1 != "op"))
      | _ => none
  | arr (str tag :: rest) => some (tag, arr rest)
  | _ => none

instance : Form FileStep where
  toJson
    | delete path skipTrash =>
        obj [("op", str "delete"), ("path", str path), ("skip-trash", bool skipTrash)]
    | mkdir path => obj [("op", str "mkdir"), ("path", str path)]
    | move source target => obj [("op", str "move"), ("source", str source), ("target", str target)]
    | chmod path permissions dirFiles recursive =>
        obj [("op", str "chmod"), ("path", str path), ("permissions", str permissions),
          ("dir-files", bool dirFiles), ("recursive", bool recursive)]
    | touchz path => obj [("op", str "touchz"), ("path", str path)]
  ofJson? j := do
    let (tag, body) ← tagged? j
    match tag with
    | "delete" =>
        let given ← fields? ["path", "skip-trash"] false body
        return .delete (← required "path" asText? given)
          (← defaulted "skip-trash" asFlag? false given)
    | "mkdir" =>
        let given ← fields? ["path"] false body
        return .mkdir (← required "path" asText? given)
    | "move" =>
        let given ← fields? ["source", "target"] false body
        return .move (← required "source" asText? given) (← required "target" asText? given)
    | "chmod" =>
        let given ← fields? ["path", "permissions", "dir-files", "recursive"] false body
        return .chmod (← required "path" asText? given) (← required "permissions" asText? given)
          (← defaulted "dir-files" asFlag? false given)
          (← defaulted "recursive" asFlag? false given)
    | "touchz" =>
        let given ← fields? ["path"] false body
        return .touchz (← required "path" asText? given)
    | _ => none
  keeps _ := true

end FileStep

structure FileSystemPayload where
  nameNode : Option String := none
  jobXmls : List String := []
  configuration : Dict String := {}
  operations : List FileStep := []
  deriving DecidableEq

namespace FileSystemPayload

def keys : List String := ["name-node", "job-xmls", "configuration", "operations"]

instance : Form FileSystemPayload where
  toJson p := obj (optional "name-node" str p.nameNode ++ listed "job-xmls" ofTexts p.jobXmls ++
    keyed "configuration" p.configuration ++
    [("operations", arr (p.operations.map Form.toJson))])
  ofJson? j := do
    let given ← fields? keys true j
    return { nameNode := ← defaulted "name-node" (asOption? asText?) none given
             jobXmls := ← defaulted "job-xmls" (asList? asText?) [] given
             configuration := ← defaulted "configuration" asDict? {} given
             operations := ← defaulted "operations" (asList? Form.ofJson?) [] given }
  keeps _ := true

end FileSystemPayload

structure SubWorkflowPayload where
  application : Option String := none
  propagateConfiguration : Bool := false
  configuration : Dict String := {}
  deriving DecidableEq

namespace SubWorkflowPayload

def keys : List String := ["app-path", "propagate-configuration", "configuration"]

instance : Form SubWorkflowPayload where
  toJson p := obj (optional "app-path" str p.application ++
    flagged "propagate-configuration" p.propagateConfiguration ++
    keyed "configuration" p.configuration)
  ofJson? j := do
    let given ← fields? keys true j
    return { application := ← defaulted "app-path" (asOption? asText?) none given
             propagateConfiguration := ← defaulted "propagate-configuration" asFlag? false given
             configuration := ← defaulted "configuration" asDict? {} given }
  keeps _ := true

end SubWorkflowPayload

structure EmailPayload where
  recipients : List String := []
  cc : List String := []
  bcc : List String := []
  subject : Option String := none
  body : Option String := none
  contentType : Option String := none
  attachment : Option String := none
  deriving DecidableEq

namespace EmailPayload

def keys : List String :=
  ["to", "cc", "bcc", "subject", "body", "content-type", "attachment"]

instance : Form EmailPayload where
  toJson p := obj ([("to", ofTexts p.recipients)] ++ listed "cc" ofTexts p.cc ++
    listed "bcc" ofTexts p.bcc ++ optional "subject" str p.subject ++
    optional "body" str p.body ++ optional "content-type" str p.contentType ++
    optional "attachment" str p.attachment)
  ofJson? j := do
    let given ← fields? keys true j
    return { recipients := ← defaulted "to" (asList? asText?) [] given
             cc := ← defaulted "cc" (asList? asText?) [] given
             bcc := ← defaulted "bcc" (asList? asText?) [] given
             subject := ← defaulted "subject" (asOption? asText?) none given
             body := ← defaulted "body" (asOption? asText?) none given
             contentType := ← defaulted "content-type" (asOption? asText?) none given
             attachment := ← defaulted "attachment" (asOption? asText?) none given }
  keeps _ := true

end EmailPayload

/-- The body of an action element. -/
inductive Payload where
  | mapReduce (body : MapReducePayload)
  | shell (body : ShellPayload)
  | fileSystem (body : FileSystemPayload)
  | subWorkflow (body : SubWorkflowPayload)
  | email (body : EmailPayload)
  /-- The body of a kind that is not built in. -/
  | other (kind : String) (body : Json)
  deriving DecidableEq

namespace Payload

def kind : Payload → String
  | mapReduce _ => "map-reduce"
  | shell _ => "shell"
  | fileSystem _ => "fs"
  | subWorkflow _ => "sub-workflow"
  | email _ => "email"
  | other kind _ => kind

/-- Reads a body as the payload of a kind. A kind that is not built in takes any body. -/
def ofBody? (kind : String) (body : Json) : Option Payload :=
  match kind with
  | "map-reduce" => (Form.ofJson? body).map mapReduce
  | "shell" => (Form.ofJson? body).map shell
  | "fs" => (Form.ofJson? body).map fileSystem
  | "sub-workflow" => (Form.ofJson? body).map subWorkflow
  | "email" => (Form.ofJson? body).map email
  | kind => some (other kind body)

/-- The member that a payload adds to its element. The key of a built-in payload is its kind. -/
def toMember : Payload → String × Json
  | mapReduce body => ("map-reduce", Form.toJson body)
  | shell body => ("shell", Form.toJson body)
  | fileSystem body => ("fs", Form.toJson body)
  | subWorkflow body => ("sub-workflow", Form.toJson body)
  | email body => ("email", Form.toJson body)
  | other kind body => ("other", obj [("kind", str kind), ("body", body)])

def toJson (p : Payload) : Json := obj [p.toMember]

end Payload
end BatchFlow

import BatchFlow.Json.Record

/-!
# Declarations of a workflow

Parameters, global defaults and credentials: what a workflow states beside its nodes. They go into
a document as they are and can be read back from JSON; keys that they do not know are passed over.
-/

namespace BatchFlow

open Json

/-- A parameter, perhaps with a default value. -/
structure Parameter where
  name : String
  value : Option String := none
  description : Option String := none
  deriving DecidableEq

namespace Parameter

def keys : List String := ["name", "value", "description"]

instance : Form Parameter where
  toJson p := obj ([("name", str p.name)] ++ optional "value" str p.value ++
    optional "description" str p.description)
  ofJson? j := do
    let given ← fields? keys false j
    return { name := ← required "name" asText? given
             value := ← defaulted "value" (asOption? asText?) none given
             description := ← defaulted "description" (asOption? asText?) none given }
  keeps := keys.contains

end Parameter

/-- Defaults for every action of a workflow. -/
structure Global where
  jobTracker : Option String := none
  nameNode : Option String := none
  jobXmls : List String := []
  configuration : Dict String := {}
  deriving DecidableEq

namespace Global

def withJobTracker (g : Global) (address : String) : Global :=
  { g with jobTracker := some address }

def withNameNode (g : Global) (address : String) : Global :=
  { g with nameNode := some address }

def withJobXml (g : Global) (path : String) : Global :=
  { g with jobXmls := g.jobXmls ++ [path] }

def withProperty (g : Global) (key value : String) : Global :=
  { g with configuration := g.configuration.insert key value }

def keys : List String := ["job-tracker", "name-node", "job-xmls", "configuration"]

instance : Form Global where
  toJson g := obj (optional "job-tracker" str g.jobTracker ++ optional "name-node" str g.nameNode ++
    listed "job-xmls" ofTexts g.jobXmls ++ keyed "configuration" g.configuration)
  ofJson? j := do
    let given ← fields? keys false j
    return { jobTracker := ← defaulted "job-tracker" (asOption? asText?) none given
             nameNode := ← defaulted "name-node" (asOption? asText?) none given
             jobXmls := ← defaulted "job-xmls" (asList? asText?) [] given
             configuration := ← defaulted "configuration" asDict? {} given }
  keeps := keys.contains

end Global

/-- What an action needs to reach a secured service. -/
structure Credential where
  name : String
  /-- The sort of credential, for the engine to understand. -/
  sort : String
  properties : Dict String := {}
  deriving DecidableEq

namespace Credential

def withProperty (c : Credential) (key value : String) : Credential :=
  { c with properties := c.properties.insert key value }

def keys : List String := ["name", "type", "properties"]

instance : Form Credential where
  toJson c := obj ([("name", str c.name), ("type", str c.sort)] ++ keyed "properties" c.properties)
  ofJson? j := do
    let given ← fields? keys false j
    return { name := ← required "name" asText? given
             sort := ← required "type" asText? given
             properties := ← defaulted "properties" asDict? {} given }
  keeps := keys.contains

end Credential
end BatchFlow

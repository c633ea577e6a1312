import BatchFlow.Configuration
import BatchFlow.Json.Record

/-!
# Sub-workflow actions

Another workflow application that runs as a step. Whether the configuration is passed down to it
is a flag that may be written once.
-/

namespace BatchFlow

/-- A child workflow to run. -/
structure SubWorkflow where
  application : Option String := none
  propagateConfiguration : Bool := false
  configuration : Configuration := {}
  deriving DecidableEq, Inhabited

namespace SubWorkflow

/-- All settings, the absent ones as null. -/
def toJson (a : SubWorkflow) : Json :=
  .obj [("app-path", .ofOption .str a.application),
    ("propagate-configuration", .bool a.propagateConfiguration),
    ("configuration", .ofDict a.configuration)]

structure Draft where
  application : WriteOnce String := {}
  propagateConfiguration : WriteOnce Bool := {}
  configuration : Configuration.Draft := {}
  deriving DecidableEq

inductive Edit where
  | application (path : String)
  | propagateConfiguration (flag : Bool)
  | configuration (edit : Configuration.Edit)
  deriving DecidableEq

namespace Draft

def ofSettings (a : SubWorkflow) : Draft where
  application := .ofOption a.application
  propagateConfiguration := .ofDefault a.propagateConfiguration
  configuration := .ofConfiguration a.configuration

def apply (d : Draft) : Edit → Except BuildError Draft
  | .application path => return { d with application := ← d.application.set "app path" path }
  | .propagateConfiguration flag =>
      return { d with propagateConfiguration :=
        ← d.propagateConfiguration.set "propagate configuration" flag }
  | .configuration e => return { d with configuration := ← d.configuration.apply e }

def settings (d : Draft) : SubWorkflow where
  application := d.application.value
  propagateConfiguration := d.propagateConfiguration.value.getD false
  configuration := d.configuration.build

end Draft
end SubWorkflow
end BatchFlow

import BatchFlow.Action.ListEdit
import BatchFlow.Action.Prepare
import BatchFlow.Configuration

/-!
# Map-reduce actions

A job for the cluster, with the files it ships and the paths it prepares.
-/

namespace BatchFlow

/-- A map-reduce job to run. -/
structure MapReduce where
  jobTracker : Option String := none
  nameNode : Option String := none
  prepare : Option Prepare := none
  jobXmls : List String := []
  configuration : Configuration := {}
  configClass : Option String := none
  files : List String := []
  archives : List String := []
  deriving DecidableEq, Inhabited

namespace MapReduce

/-- All settings, the absent ones as null. -/
def toJson (a : MapReduce) : Json :=
  .obj [("job-tracker", .ofOption .str a.jobTracker), ("name-node", .ofOption .str a.nameNode),
    ("prepare", .ofOption Prepare.toJson a.prepare), ("job-xmls", .ofTexts a.jobXmls),
    ("configuration", .ofDict a.configuration),
    ("config-class", .ofOption .str a.configClass), ("files", .ofTexts a.files),
    ("archives", .ofTexts a.archives)]

structure Draft where
  jobTracker : WriteOnce String := {}
  nameNode : WriteOnce String := {}
  prepare : WriteOnce Prepare := {}
  jobXmls : List String := []
  configuration : Configuration.Draft := {}
  configClass : WriteOnce String := {}
  files : List String := []
  archives : List String := []
  deriving DecidableEq

inductive Edit where
  | jobTracker (address : String)
  | nameNode (address : String)
  | prepare (block : Prepare)
  | jobXmls (edit : ListEdit String)
  | configuration (edit : Configuration.Edit)
  | configClass (name : String)
  | files (edit : ListEdit String)
  | archives (edit : ListEdit String)
  deriving DecidableEq

namespace Draft

def ofSettings (a : MapReduce) : Draft where
  jobTracker := .ofOption a.jobTracker
  nameNode := .ofOption a.nameNode
  prepare := .ofOption a.prepare
  jobXmls := a.jobXmls
  configuration := .ofConfiguration a.configuration
  configClass := .ofOption a.configClass
  files := a.files
  archives := a.archives

def apply (d : Draft) : Edit → Except BuildError Draft
  | .jobTracker address => return { d with jobTracker := ← d.jobTracker.set "job tracker" address }
  | .nameNode address => return { d with nameNode := ← d.nameNode.set "name node" address }
  | .prepare block => return { d with prepare := ← d.prepare.set "prepare" block }
  | .jobXmls e => return { d with jobXmls := e.apply d.jobXmls }
  | .configuration e => return { d with configuration := ← d.configuration.apply e }
  | .configClass name => return { d with configClass := ← d.configClass.set "config class" name }
  | .files e => return { d with files := e.apply d.files }
  | .archives e => return { d with archives := e.apply d.archives }

def settings (d : Draft) : MapReduce where
  jobTracker := d.jobTracker.value
  nameNode := d.nameNode.value
  prepare := d.prepare.value
  jobXmls := d.jobXmls
  configuration := d.configuration.build
  configClass := d.configClass.value
  files := d.files
  archives := d.archives

end Draft
end MapReduce
end BatchFlow

import BatchFlow.Action.ListEdit
import BatchFlow.Action.Prepare
import BatchFlow.Configuration

/-!
# Shell actions

A command with its arguments and environment. Whether its output is captured is a flag that may be
written once, like the texts; it is off until then.
-/

namespace BatchFlow

/-- A shell command to run. -/
structure Shell where
  jobTracker : Option String := none
  nameNode : Option String := none
  prepare : Option Prepare := none
  configuration : Configuration := {}
  exec : Option String := none
  arguments : List String := []
  environmentVariables : List String := []
  files : List String := []
  archives : List String := []
  captureOutput : Bool := false
  deriving DecidableEq, Inhabited

namespace Shell

/-- All settings, the absent ones as null. -/
def toJson (a : Shell) : Json :=
  .obj [("job-tracker", .ofOption .str a.jobTracker), ("name-node", .ofOption .str a.nameNode),
    ("prepare", .ofOption Prepare.toJson a.prepare),
    ("configuration", .ofDict a.configuration), ("exec", .ofOption .str a.exec),
    ("arguments", .ofTexts a.arguments),
    ("environment-variables", .ofTexts a.environmentVariables), ("files", .ofTexts a.files),
    ("archives", .ofTexts a.archives), ("capture-output", .bool a.captureOutput)]

structure Draft where
  jobTracker : WriteOnce String := {}
  nameNode : WriteOnce String := {}
  prepare : WriteOnce Prepare := {}
  configuration : Configuration.Draft := {}
  exec : WriteOnce String := {}
  arguments : List String := []
  environmentVariables : List String := []
  files : List String := []
  archives : List String := []
  captureOutput : WriteOnce Bool := {}
  deriving DecidableEq

inductive Edit where
  | jobTracker (address : String)
  | nameNode (address : String)
  | prepare (block : Prepare)
  | configuration (edit : Configuration.Edit)
  | exec (command : String)
  | arguments (edit : ListEdit String)
  | environmentVariables (edit : ListEdit String)
  | files (edit : ListEdit String)
  | archives (edit : ListEdit String)
  | captureOutput (flag : Bool)
  deriving DecidableEq

namespace Draft

def ofSettings (a : Shell) : Draft where
  jobTracker := .ofOption a.jobTracker
  nameNode := .ofOption a.nameNode
  prepare := .ofOption a.prepare
  configuration := .ofConfiguration a.configuration
  exec := .ofOption a.exec
  arguments := a.arguments
  environmentVariables := a.environmentVariables
  files := a.files
  archives := a.archives
  captureOutput := .ofDefault a.captureOutput

def apply (d : Draft) : Edit → Except BuildError Draft
  | .jobTracker address => return { d with jobTracker := ← d.jobTracker.set "job tracker" address }
  | .nameNode address => return { d with nameNode := ← d.nameNode.set "name node" address }
  | .prepare block => return { d with prepare := ← d.prepare.set "prepare" block }
  | .configuration e => return { d with configuration := ← d.configuration.apply e }
  | .exec command => return { d with exec := ← d.exec.set "executable" command }
  | .arguments e => return { d with arguments := e.apply d.arguments }
  | .environmentVariables e =>
      return { d with environmentVariables := e.apply d.environmentVariables }
  | .files e => return { d with files := e.apply d.files }
  | .archives e => return { d with archives := e.apply d.archives }
  | .captureOutput flag =>
      return { d with captureOutput := ← d.captureOutput.set "capture output" flag }

def settings (d : Draft) : Shell where
  jobTracker := d.jobTracker.value
  nameNode := d.nameNode.value
  prepare := d.prepare.value
  configuration := d.configuration.build
  exec := d.exec.value
  arguments := d.arguments
  environmentVariables := d.environmentVariables
  files := d.files
  archives := d.archives
  captureOutput := d.captureOutput.value.getD false

end Draft
end Shell
end BatchFlow

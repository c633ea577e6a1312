import BatchFlow.Action.ListEdit
import BatchFlow.Configuration
import BatchFlow.Json.Record

/-!
# File-system actions

A list of operations on paths that run in order.
-/

namespace BatchFlow

/-- One operation on the file system. -/
inductive FileOperation where
  /-- Removes a path, past the trash if asked to. -/
  | delete (path : String) (skipTrash : Bool)
  | mkdir (path : String)
  | move (source target : String)
  /-- Changes permissions, of the files in a directory and of subdirectories if asked to. -/
  | chmod (path permissions : String) (dirFiles recursive : Bool)
  /-- Creates an empty file. -/
  | touchz (path : String)
  deriving DecidableEq, Inhabited

/-- The operation's name comes first, as the tag that tells the forms apart. -/
def FileOperation.toJson : FileOperation → Json
  | delete path skipTrash =>
      .obj [("op", .str "delete"), ("path", .str path), ("skip-trash", .bool skipTrash)]
  | mkdir path => .obj [("op", .str "mkdir"), ("path", .str path)]
  | move source target =>
      .obj [("op", .str "move"), ("source", .str source), ("target", .str target)]
  | chmod path permissions dirFiles recursive =>
      .obj [("op", .str "chmod"), ("path", .str path), ("permissions", .str permissions),
        ("dir-files", .bool dirFiles), ("recursive", .bool recursive)]
  | touchz path => .obj [("op", .str "touchz"), ("path", .str path)]

/-- Operations to run. -/
structure FileSystem where
  nameNode : Option String := none
  jobXmls : List String := []
  configuration : Configuration := {}
  operations : List FileOperation := []
  deriving DecidableEq, Inhabited

namespace FileSystem

/-- All settings, the absent ones as null. -/
def toJson (a : FileSystem) : Json :=
  .obj [("name-node", .ofOption .str a.nameNode), ("job-xmls", .ofTexts a.jobXmls),
    ("configuration", .ofDict a.configuration),
    ("operations", .arr (a.operations.map FileOperation.toJson))]

structure Draft where
  nameNode : WriteOnce String := {}
  jobXmls : List String := []
  configuration : Configuration.Draft := {}
  operations : List FileOperation := []
  deriving DecidableEq

inductive Edit where
  | nameNode (address : String)
  | jobXmls (edit : ListEdit String)
  | configuration (edit : Configuration.Edit)
  | operations (edit : ListEdit FileOperation)
  deriving DecidableEq

namespace Draft

def ofSettings (a : FileSystem) : Draft where
  nameNode := .ofOption a.nameNode
  jobXmls := a.jobXmls
  configuration := .ofConfiguration a.configuration
  operations := a.operations

def apply (d : Draft) : Edit → Except BuildError Draft
  | .nameNode address => return { d with nameNode := ← d.nameNode.set "name node" address }
  | .jobXmls e => return { d with jobXmls := e.apply d.jobXmls }
  | .configuration e => return { d with configuration := ← d.configuration.apply e }
  | .operations e => return { d with operations := e.apply d.operations }

def settings (d : Draft) : FileSystem where
  nameNode := d.nameNode.value
  jobXmls := d.jobXmls
  configuration := d.configuration.build
  operations := d.operations

end Draft
end FileSystem
end BatchFlow

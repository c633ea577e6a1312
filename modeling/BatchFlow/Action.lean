import BatchFlow.Action.Email
import BatchFlow.Action.FileSystem
import BatchFlow.Action.MapReduce
import BatchFlow.Action.Shell
import BatchFlow.Action.SubWorkflow

/-!
# Actions

An action is a kind together with the settings that go with the kind. Five kinds are built in; a
custom kind is known by its name and carries nothing but its JSON form. A custom kind never equals
a built-in one, even if it shares its label.

Settings, drafts and edits are families over the kind, so that a statement about builders is made
once for all kinds.
-/

namespace BatchFlow

/-- What an action does. -/
inductive Kind where
  | email
  | fileSystem
  | mapReduce
  | shell
  | subWorkflow
  | custom (name : String)
  deriving DecidableEq

namespace Kind

def label : Kind → String
  | email => "email"
  | fileSystem => "fs"
  | mapReduce => "map-reduce"
  | shell => "shell"
  | subWorkflow => "sub-workflow"
  | custom name => name

/-- The kinds that come with the library. -/
def builtIn : List Kind := [mapReduce, shell, fileSystem, subWorkflow, email]

/-- The built-in kind with a label, or else the custom kind of that name. -/
def ofLabel (text : String) : Kind :=
  (builtIn.find? fun k => k.label == text).getD (custom text)

/-- What an action of a kind carries. A custom action carries its JSON form, or nothing if it has
none. -/
abbrev Settings : Kind → Type
  | email => Email
  | fileSystem => FileSystem
  | mapReduce => MapReduce
  | shell => Shell
  | subWorkflow => SubWorkflow
  | custom _ => Option Json

instance : (k : Kind) → DecidableEq k.Settings
  | email => inferInstanceAs (DecidableEq Email)
  | fileSystem => inferInstanceAs (DecidableEq FileSystem)
  | mapReduce => inferInstanceAs (DecidableEq MapReduce)
  | shell => inferInstanceAs (DecidableEq Shell)
  | subWorkflow => inferInstanceAs (DecidableEq SubWorkflow)
  | custom _ => inferInstanceAs (DecidableEq (Option Json))

/-- Settings under construction. -/
abbrev Draft : Kind → Type
  | email => Email.Draft
  | fileSystem => FileSystem.Draft
  | mapReduce => MapReduce.Draft
  | shell => Shell.Draft
  | subWorkflow => SubWorkflow.Draft
  | custom _ => Option Json

/-- One change to settings under construction. A custom action is complete from the start. -/
abbrev Edit : Kind → Type
  | email => Email.Edit
  | fileSystem => FileSystem.Edit
  | mapReduce => MapReduce.Edit
  | shell => Shell.Edit
  | subWorkflow => SubWorkflow.Edit
  | custom _ => Empty

/-- The draft that a new builder of a built-in kind starts with. -/
def draft : (k : Kind) → k.Draft
  | email => ({} : Email.Draft)
  | fileSystem => ({} : FileSystem.Draft)
  | mapReduce => ({} : MapReduce.Draft)
  | shell => ({} : Shell.Draft)
  | subWorkflow => ({} : SubWorkflow.Draft)
  | custom _ => (none : Option Json)

/-- A draft that starts from existing settings. -/
def draftOf : (k : Kind) → k.Settings → k.Draft
  | email => Email.Draft.ofSettings
  | fileSystem => FileSystem.Draft.ofSettings
  | mapReduce => MapReduce.Draft.ofSettings
  | shell => Shell.Draft.ofSettings
  | subWorkflow => SubWorkflow.Draft.ofSettings
  | custom _ => id

def applyEdit : (k : Kind) → k.Draft → k.Edit → Except BuildError k.Draft
  | email => Email.Draft.apply
  | fileSystem => FileSystem.Draft.apply
  | mapReduce => MapReduce.Draft.apply
  | shell => Shell.Draft.apply
  | subWorkflow => SubWorkflow.Draft.apply
  | custom _ => fun _ e => nomatch e

/-- The settings as they stand in a draft. -/
def settingsOf : (k : Kind) → k.Draft → k.Settings
  | email => Email.Draft.settings
  | fileSystem => FileSystem.Draft.settings
  | mapReduce => MapReduce.Draft.settings
  | shell => Shell.Draft.settings
  | subWorkflow => SubWorkflow.Draft.settings
  | custom _ => id

/-- The JSON form of settings; only a custom action may lack one. -/
def toJson? : (k : Kind) → k.Settings → Option Json
  | email => fun s => some (Email.toJson s)
  | fileSystem => fun s => some (FileSystem.toJson s)
  | mapReduce => fun s => some (MapReduce.toJson s)
  | shell => fun s => some (Shell.toJson s)
  | subWorkflow => fun s => some (SubWorkflow.toJson s)
  | custom _ => id

/-- The configuration that settings hold, for the kinds that have one. -/
def configuration? : (k : Kind) → k.Settings → Option Configuration
  | email => fun _ => none
  | fileSystem => fun s => some (FileSystem.configuration s)
  | mapReduce => fun s => some (MapReduce.configuration s)
  | shell => fun s => some (Shell.configuration s)
  | subWorkflow => fun s => some (SubWorkflow.configuration s)
  | custom _ => fun _ => none

end Kind

/-- A unit of work: its kind and the settings for it. -/
structure Action where
  kind : Kind
  settings : kind.Settings

namespace Action

instance : DecidableEq Action := fun ⟨k, s⟩ ⟨l, t⟩ =>
  if h : k = l then by
    subst h
    exact decidable_of_iff (s = t) (by simp)
  else isFalse fun e => h (congrArg Action.kind e)

def toJson? (a : Action) : Option Json := a.kind.toJson? a.settings

def configuration? (a : Action) : Option Configuration := a.kind.configuration? a.settings

/-- The settings, if the action is of the kind asked for. -/
def settingsAs? (a : Action) (k : Kind) : Option k.Settings :=
  if h : a.kind = k then some (h ▸ a.settings) else none

end Action
end BatchFlow

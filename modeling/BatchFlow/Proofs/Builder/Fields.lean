import BatchFlow.Builder
import BatchFlow.Proofs.Builder.Slots
import BatchFlow.Workflow

/-!
# The fields of drafts

The slots of each draft, as a table: which calls are on which field, under which name errors speak
of the field, and which calls are on no field at all. A configuration has a field for every text
that might be a key, so whether a key is there yet plays no part.
-/

namespace BatchFlow

/-! ### Properties -/

namespace Configuration.Draft

variable {d : Draft}

/-- The field of a key, whether the key is there or not. -/
def slot (d : Draft) (key : String) : WriteOnce String := (d.get? key).getD {}

theorem slot_insert_self (d : Draft) (key : String) (w : WriteOnce String) :
    slot (d.insert key w) key = w := by
  unfold slot
  rw [Dict.get?_insert, if_pos rfl]
  rfl

theorem slot_insert_of_ne {key k : String} (h : k ≠ key) (d : Draft) (w : WriteOnce String) :
    slot (d.insert key w) k = slot d k := by
  unfold slot
  rw [Dict.get?_insert, if_neg h]

/-- A property that was copied is a default. -/
theorem slot_ofConfiguration (c : Configuration) (key : String) :
    slot (ofConfiguration c) key = .ofOption (c.get? key) := by
  unfold slot ofConfiguration
  rw [Dict.get?_map]
  cases c.get? key <;> rfl

/-- A field that has been modified is there. -/
theorem get?_of_modified {key : String} (h : (slot d key).modified = true) :
    d.get? key = some (slot d key) := by
  unfold slot at h ⊢
  cases hkey : d.get? key with
  | none => simp [hkey] at h
  | some w => rfl

theorem insert_slot {key : String} (h : (slot d key).modified = true) :
    d.insert key (slot d key) = d :=
  Dict.insert_of_get? (get?_of_modified h)

/-- What is built shows the values of the fields, and no others. -/
theorem get?_build (d : Draft) (key : String) : d.build.get? key = (slot d key).value := by
  ext value
  rw [build, Dict.get?_present_eq_some_iff, Dict.get?_map]
  unfold slot
  cases d.get? key with
  | none => simp
  | some w => simp

end Configuration.Draft

/-! ### Nodes -/

namespace NodeDraft

inductive Field where
  | name
  | handler
  deriving DecidableEq

/-- Looks for the parent among those that are there, then adds it to one of the lists. -/
def addParentInPlace (id : NodeId) (condition : Option Condition) :
    EStateM BuildError NodeDraft Unit := do
  let d ← get
  answer (if d.hasParent id then .error (.duplicateParent id) else .ok ())
  modify fun d => match condition with
    | none => { d with plainParents := d.plainParents ++ [id] }
    | some c => { d with conditionalParents := d.conditionalParents ++ [⟨id, c⟩] }

def removeParentInPlace (id : NodeId) : EStateM BuildError NodeDraft Unit := do
  let d ← get
  if d.plainParents.contains id then
    modify fun d => { d with plainParents := d.plainParents.erase id }
  else if (d.conditionalParents.map Branch.node).contains id then
    modify fun d =>
      { d with conditionalParents := d.conditionalParents.eraseP fun b => b.node == id }
  else throw (.unknownParent id)

/-- Empties one list after the other. -/
def clearParentsInPlace : EStateM BuildError NodeDraft Unit := do
  modify fun d => { d with plainParents := [] }
  modify fun d => { d with conditionalParents := [] }

theorem addParentInPlace_eq (id : NodeId) (condition : Option Condition) :
    addParentInPlace id condition = attempt (·.addParent id condition) := by
  simp only [addParentInPlace, modify_eq_attempt, answer_bind_attempt, get_bind_attempt]
  congr 1
  funext d
  unfold addParent
  by_cases hd : d.hasParent id = true
  · rw [if_pos hd, if_pos hd]
    rfl
  · rw [if_neg hd, if_neg hd]
    cases condition <;> rfl

theorem removeParentInPlace_eq (id : NodeId) :
    removeParentInPlace id = attempt (·.removeParent id) := by
  simp only [removeParentInPlace, modify_eq_attempt, throw_eq_attempt, ← apply_ite attempt,
    get_bind_attempt]
  congr 1
  funext d
  unfold removeParent
  split
  · rfl
  · split <;> rfl

def slots : Slots NodeDraft Edit where
  Field := Field
  decEq := inferInstance
  Value
    | .name => String
    | .handler => Handler
  text
    | .name => "name"
    | .handler => "error handler"
  slot d
    | .name => d.name
    | .handler => d.handler
  put d
    | .name, w => { d with name := w }
    | .handler, w => { d with handler := w }
  move
    | .name text => .modify .name (some text)
    | .handler h => .modify .handler (some h)
    | .noHandler => .modify .handler none
    | .parent id condition => .change (addParentInPlace id condition)
    | .dropParent id => .change (removeParentInPlace id)
    | .clearParents => .change clearParentsInPlace
  apply := apply

theorem slot_addParent {d d' : NodeDraft} {id : NodeId} {condition : Option Condition}
    (h : d.addParent id condition = .ok d') : slots.slot d' = slots.slot d := by
  unfold addParent at h
  split at h
  · cases h
  · cases condition <;> cases h <;> rfl

theorem slot_removeParent {d d' : NodeDraft} {id : NodeId} (h : d.removeParent id = .ok d') :
    slots.slot d' = slots.slot d := by
  unfold removeParent at h
  split at h
  · cases h
    rfl
  · split at h <;> cases h
    rfl

theorem slots_lawful : slots.Lawful where
  exists_call f v := by
    cases f with
    | name => exact ⟨.name v, rfl⟩
    | handler => exact ⟨.handler v, rfl⟩
  apply_eq {e f v} he s := by cases e <;> cases he <;> rfl
  change_eq {e program} he := by
    cases e with
    | parent id condition => cases he; exact addParentInPlace_eq id condition
    | dropParent id => cases he; exact removeParentInPlace_eq id
    | clearParents => cases he; rfl
    | _ => cases he
  slot_put_self s f w := by cases f <;> rfl
  slot_put_of_ne {f g} hne s w := by cases f <;> cases g <;> (try contradiction) <;> rfl
  put_slot {s f} _ := by cases f <;> rfl
  slot_eq {e program} he s s' hs := by
    cases e with
    | parent id condition => exact slot_addParent hs
    | dropParent id => exact slot_removeParent hs
    | clearParents => cases hs; rfl
    | _ => cases he

/-- What is known of a node before it is placed tells the fields. -/
def told (n : NodeSpec) : slots.Values
  | .name => n.name
  | .handler => n.handler

/-- A node tells the fields, and it has a name. -/
def toldBy (n : Node) : slots.Values
  | .name => some n.name
  | .handler => n.handler

theorem slot_ofNode (n : Node) (f : Field) : slots.slot (ofNode n) f = .ofOption (toldBy n f) := by
  cases f <;> rfl

theorem told_spec (d : NodeDraft) (f : Field) : told d.spec f = (slots.slot d f).value := by
  cases f <;> rfl

end NodeDraft

/-! ### Actions -/

namespace Email.Draft

inductive Field where
  | subject
  | body
  | contentType
  | attachment
  deriving DecidableEq

def slots : Slots Draft Edit where
  Field := Field
  decEq := inferInstance
  Value _ := String
  text
    | .subject => "subject"
    | .body => "body"
    | .contentType => "content type"
    | .attachment => "attachment"
  slot d
    | .subject => d.subject
    | .body => d.body
    | .contentType => d.contentType
    | .attachment => d.attachment
  put d
    | .subject, w => { d with subject := w }
    | .body, w => { d with body := w }
    | .contentType, w => { d with contentType := w }
    | .attachment, w => { d with attachment := w }
  move
    | .recipients e => .change (modify fun d => { d with recipients := e.apply d.recipients })
    | .cc e => .change (modify fun d => { d with cc := e.apply d.cc })
    | .bcc e => .change (modify fun d => { d with bcc := e.apply d.bcc })
    | .subject text => .modify .subject (some text)
    | .body text => .modify .body (some text)
    | .contentType text => .modify .contentType (some text)
    | .attachment path => .modify .attachment (some path)
  apply := apply

/-- The settings tell the fields. -/
def told (a : Email) : slots.Values
  | .subject => a.subject
  | .body => a.body
  | .contentType => a.contentType
  | .attachment => a.attachment

end Email.Draft

namespace FileSystem.Draft

inductive Field where
  | nameNode
  | property (key : String)
  deriving DecidableEq

def slots : Slots Draft Edit where
  Field := Field
  decEq := inferInstance
  Value _ := String
  text
    | .nameNode => "name node"
    | .property key => propertyText key
  slot d
    | .nameNode => d.nameNode
    | .property key => Configuration.Draft.slot d.configuration key
  put d
    | .nameNode, w => { d with nameNode := w }
    | .property key, w => { d with configuration := d.configuration.insert key w }
  move
    | .nameNode address => .modify .nameNode (some address)
    | .jobXmls e => .change (modify fun d => { d with jobXmls := e.apply d.jobXmls })
    | .configuration e => .modify (.property e.key) e.value?
    | .operations e => .change (modify fun d => { d with operations := e.apply d.operations })
  apply := apply

/-- The settings tell the fields. -/
def told (a : FileSystem) : slots.Values
  | .nameNode => a.nameNode
  | .property key => a.configuration.get? key

end FileSystem.Draft

namespace MapReduce.Draft

inductive Field where
  | jobTracker
  | nameNode
  | prepare
  | configClass
  | property (key : String)
  deriving DecidableEq

def slots : Slots Draft Edit where
  Field := Field
  decEq := inferInstance
  Value
    | .prepare => Prepare
    | _ => String
  text
    | .jobTracker => "job tracker"
    | .nameNode => "name node"
    | .prepare => "prepare"
    | .configClass => "config class"
    | .property key => propertyText key
  slot d
    | .jobTracker => d.jobTracker
    | .nameNode => d.nameNode
    | .prepare => d.prepare
    | .configClass => d.configClass
    | .property key => Configuration.Draft.slot d.configuration key
  put d
    | .jobTracker, w => { d with jobTracker := w }
    | .nameNode, w => { d with nameNode := w }
    | .prepare, w => { d with prepare := w }
    | .configClass, w => { d with configClass := w }
    | .property key, w => { d with configuration := d.configuration.insert key w }
  move
    | .jobTracker address => .modify .jobTracker (some address)
    | .nameNode address => .modify .nameNode (some address)
    | .prepare block => .modify .prepare (some block)
    | .jobXmls e => .change (modify fun d => { d with jobXmls := e.apply d.jobXmls })
    | .configuration e => .modify (.property e.key) e.value?
    | .configClass name => .modify .configClass (some name)
    | .files e => .change (modify fun d => { d with files := e.apply d.files })
    | .archives e => .change (modify fun d => { d with archives := e.apply d.archives })
  apply := apply

/-- The settings tell the fields. -/
def told (a : MapReduce) : slots.Values
  | .jobTracker => a.jobTracker
  | .nameNode => a.nameNode
  | .prepare => a.prepare
  | .configClass => a.configClass
  | .property key => a.configuration.get? key

end MapReduce.Draft

namespace Shell.Draft

inductive Field where
  | jobTracker
  | nameNode
  | prepare
  | exec
  | captureOutput
  | property (key : String)
  deriving DecidableEq

def slots : Slots Draft Edit where
  Field := Field
  decEq := inferInstance
  Value
    | .prepare => Prepare
    | .captureOutput => Bool
    | _ => String
  text
    | .jobTracker => "job tracker"
    | .nameNode => "name node"
    | .prepare => "prepare"
    | .exec => "executable"
    | .captureOutput => "capture output"
    | .property key => propertyText key
  slot d
    | .jobTracker => d.jobTracker
    | .nameNode => d.nameNode
    | .prepare => d.prepare
    | .exec => d.exec
    | .captureOutput => d.captureOutput
    | .property key => Configuration.Draft.slot d.configuration key
  put d
    | .jobTracker, w => { d with jobTracker := w }
    | .nameNode, w => { d with nameNode := w }
    | .prepare, w => { d with prepare := w }
    | .exec, w => { d with exec := w }
    | .captureOutput, w => { d with captureOutput := w }
    | .property key, w => { d with configuration := d.configuration.insert key w }
  move
    | .jobTracker address => .modify .jobTracker (some address)
    | .nameNode address => .modify .nameNode (some address)
    | .prepare block => .modify .prepare (some block)
    | .configuration e => .modify (.property e.key) e.value?
    | .exec command => .modify .exec (some command)
    | .arguments e => .change (modify fun d => { d with arguments := e.apply d.arguments })
    | .environmentVariables e =>
        .change (modify fun d => { d with environmentVariables := e.apply d.environmentVariables })
    | .files e => .change (modify fun d => { d with files := e.apply d.files })
    | .archives e => .change (modify fun d => { d with archives := e.apply d.archives })
    | .captureOutput flag => .modify .captureOutput (some flag)
  apply := apply

/-- The settings tell the fields, and whether output is captured in any case. -/
def told (a : Shell) : slots.Values
  | .jobTracker => a.jobTracker
  | .nameNode => a.nameNode
  | .prepare => a.prepare
  | .exec => a.exec
  | .captureOutput => some a.captureOutput
  | .property key => a.configuration.get? key

/-- What is told of a field without a value: output is not captured. -/
def blank : slots.Values
  | .captureOutput => some false
  | _ => none

end Shell.Draft

namespace SubWorkflow.Draft

inductive Field where
  | application
  | propagateConfiguration
  | property (key : String)
  deriving DecidableEq

def slots : Slots Draft Edit where
  Field := Field
  decEq := inferInstance
  Value
    | .propagateConfiguration => Bool
    | _ => String
  text
    | .application => "app path"
    | .propagateConfiguration => "propagate configuration"
    | .property key => propertyText key
  slot d
    | .application => d.application
    | .propagateConfiguration => d.propagateConfiguration
    | .property key => Configuration.Draft.slot d.configuration key
  put d
    | .application, w => { d with application := w }
    | .propagateConfiguration, w => { d with propagateConfiguration := w }
    | .property key, w => { d with configuration := d.configuration.insert key w }
  move
    | .application path => .modify .application (some path)
    | .propagateConfiguration flag => .modify .propagateConfiguration (some flag)
    | .configuration e => .modify (.property e.key) e.value?
  apply := apply

/-- The settings tell the fields, and whether the configuration is passed down in any case. -/
def told (a : SubWorkflow) : slots.Values
  | .application => a.application
  | .propagateConfiguration => some a.propagateConfiguration
  | .property key => a.configuration.get? key

/-- What is told of a field without a value: the configuration is not passed down. -/
def blank : slots.Values
  | .propagateConfiguration => some false
  | _ => none

end SubWorkflow.Draft

/-! ### Workflows -/

namespace Workflow.Draft

inductive Field where
  | name
  | global
  deriving DecidableEq

def slots : Slots Draft Edit where
  Field := Field
  decEq := inferInstance
  Value
    | .name => String
    | .global => Global
  text
    | .name => "workflow name"
    | .global => "global"
  slot d
    | .name => d.name
    | .global => d.global
  put d
    | .name, w => { d with name := w }
    | .global, w => { d with global := w }
  move
    | .name text => .modify .name (some text)
    | .entry id => .change (modify fun d => { d with entries := d.entries ++ [id] })
    | .parameter p => .change (modify fun d => { d with parameters := d.parameters ++ [p] })
    | .global g => .modify .global (some g)
    | .credential c => .change (modify fun d => { d with credentials := d.credentials ++ [c] })
  apply := apply

theorem slots_lawful : slots.Lawful where
  exists_call f v := by
    cases f with
    | name => exact ⟨.name v, rfl⟩
    | global => exact ⟨.global v, rfl⟩
  apply_eq {e f v} he s := by cases e <;> cases he <;> rfl
  change_eq {e program} he := by cases e <;> cases he <;> rfl
  slot_put_self s f w := by cases f <;> rfl
  slot_put_of_ne {f g} hne s w := by cases f <;> cases g <;> (try contradiction) <;> rfl
  put_slot {s f} _ := by cases f <;> rfl
  slot_eq {e program} he s s' hs := by cases e <;> cases he <;> cases hs <;> rfl

/-- A workflow tells the fields, and it has a name. -/
def told (w : Workflow) : slots.Values
  | .name => some w.name
  | .global => w.global

end Workflow.Draft
end BatchFlow

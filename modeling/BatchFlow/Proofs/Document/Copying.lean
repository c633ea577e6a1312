import BatchFlow.Document.Mappings
import BatchFlow.Proofs.Json.Records
import Mathlib.Data.List.Basic

/-!
# Copying fields

The form in which an action gives its settings and the form in which a payload takes its body are
written down apart from each other. They fit: a payload finds each of its keys once, under each key
a value that it can read, and what it reads is what the action holds.
-/

namespace BatchFlow

/-! ## Payloads -/

open Json

namespace PreparePayload

def of (p : Prepare) : PreparePayload := ⟨p.deletes, p.mkdirs⟩

theorem of_injective : Function.Injective of := by
  intro p q h
  cases p
  cases q
  simpa [of] using h

theorem ofJson?_toJson (p : Prepare) : Form.ofJson? p.toJson = some (of p) := by
  have hgiven : fields? keys true p.toJson = some _ := fields?_obj keys (by decide) rfl true
  show (fields? keys true p.toJson >>= _) = _
  simp [hgiven, of]

end PreparePayload

theorem asOption?_ofPrepare (o : Option Prepare) :
    asOption? Form.ofJson? (ofOption Prepare.toJson o) = some (o.map PreparePayload.of) :=
  asOption?_ofOption PreparePayload.ofJson?_toJson (fun _ h => by cases h) o

namespace EmailPayload

def of (a : Email) : EmailPayload where
  recipients := a.recipients
  cc := a.cc
  bcc := a.bcc
  subject := a.subject
  body := a.body
  contentType := a.contentType
  attachment := a.attachment

theorem of_injective : Function.Injective of := by
  intro a b h
  cases a
  cases b
  simpa [of] using h

theorem ofJson?_toJson (a : Email) : Form.ofJson? a.toJson = some (of a) := by
  have hgiven : fields? keys true a.toJson = some _ := fields?_obj keys (by decide) rfl true
  show (fields? keys true a.toJson >>= _) = _
  simp [hgiven, of]

end EmailPayload

namespace MapReducePayload

def of (a : MapReduce) : MapReducePayload where
  jobTracker := a.jobTracker
  nameNode := a.nameNode
  prepare := a.prepare.map PreparePayload.of
  jobXmls := a.jobXmls
  configuration := a.configuration
  configClass := a.configClass
  files := a.files
  archives := a.archives

theorem of_injective : Function.Injective of := by
  intro a b h
  cases a
  cases b
  simpa [of, (Option.map_injective PreparePayload.of_injective).eq_iff] using h

theorem ofJson?_toJson (a : MapReduce) : Form.ofJson? a.toJson = some (of a) := by
  have hgiven : fields? keys true a.toJson = some _ := fields?_obj keys (by decide) rfl true
  show (fields? keys true a.toJson >>= _) = _
  simp [hgiven, of, asOption?_ofPrepare]

end MapReducePayload

namespace ShellPayload

def of (a : Shell) : ShellPayload where
  jobTracker := a.jobTracker
  nameNode := a.nameNode
  prepare := a.prepare.map PreparePayload.of
  configuration := a.configuration
  exec := a.exec
  arguments := a.arguments
  environmentVariables := a.environmentVariables
  files := a.files
  archives := a.archives
  captureOutput := a.captureOutput

theorem of_injective : Function.Injective of := by
  intro a b h
  cases a
  cases b
  simpa [of, (Option.map_injective PreparePayload.of_injective).eq_iff] using h

theorem ofJson?_toJson (a : Shell) : Form.ofJson? a.toJson = some (of a) := by
  have hgiven : fields? keys true a.toJson = some _ := fields?_obj keys (by decide) rfl true
  show (fields? keys true a.toJson >>= _) = _
  simp [hgiven, of, asOption?_ofPrepare]

end ShellPayload

namespace FileStep

def of : FileOperation → FileStep
  | .delete path skipTrash => .delete path skipTrash
  | .mkdir path => .mkdir path
  | .move source target => .move source target
  | .chmod path permissions dirFiles recursive => .chmod path permissions dirFiles recursive
  | .touchz path => .touchz path

theorem of_injective : Function.Injective of := by
  intro a b h
  cases a <;> cases b <;> simp_all [of]

theorem ofJson?_toJson (op : FileOperation) : Form.ofJson? op.toJson = some (of op) := by
  cases op <;> rfl

end FileStep

namespace FileSystemPayload

def of (a : FileSystem) : FileSystemPayload where
  nameNode := a.nameNode
  jobXmls := a.jobXmls
  configuration := a.configuration
  operations := a.operations.map FileStep.of

theorem of_injective : Function.Injective of := by
  intro a b h
  cases a
  cases b
  simpa [of, (List.map_injective_iff.mpr FileStep.of_injective).eq_iff] using h

theorem ofJson?_toJson (a : FileSystem) : Form.ofJson? a.toJson = some (of a) := by
  have hgiven : fields? keys true a.toJson = some _ := fields?_obj keys (by decide) rfl true
  show (fields? keys true a.toJson >>= _) = _
  simp [hgiven, of, asList?_arr FileStep.ofJson?_toJson]

end FileSystemPayload

namespace SubWorkflowPayload

def of (a : SubWorkflow) : SubWorkflowPayload where
  application := a.application
  propagateConfiguration := a.propagateConfiguration
  configuration := a.configuration

theorem of_injective : Function.Injective of := by
  intro a b h
  cases a
  cases b
  simpa [of] using h

theorem ofJson?_toJson (a : SubWorkflow) : Form.ofJson? a.toJson = some (of a) := by
  have hgiven : fields? keys true a.toJson = some _ := fields?_obj keys (by decide) rfl true
  show (fields? keys true a.toJson >>= _) = _
  simp [hgiven, of]

end SubWorkflowPayload

/-! ## Actions -/

namespace Payload

/-- The payload is of the action's kind and has the same in every field. What is absent from the
action is absent from the payload. -/
inductive Carries : Payload → Action → Prop
  | email (s : Email) : Carries (.email (.of s)) ⟨.email, s⟩
  | fileSystem (s : FileSystem) : Carries (.fileSystem (.of s)) ⟨.fileSystem, s⟩
  | mapReduce (s : MapReduce) : Carries (.mapReduce (.of s)) ⟨.mapReduce, s⟩
  | shell (s : Shell) : Carries (.shell (.of s)) ⟨.shell, s⟩
  | subWorkflow (s : SubWorkflow) : Carries (.subWorkflow (.of s)) ⟨.subWorkflow, s⟩

variable {payload : Payload} {a b : Action}

theorem Carries.kind_eq (h : payload.Carries a) : payload.kind = a.kind.label := by
  cases h <;> rfl

/-- A payload carries one action only. -/
theorem Carries.unique (ha : payload.Carries a) (hb : payload.Carries b) : a = b := by
  generalize hp : payload = p at hb
  cases ha with
  | email s =>
    cases hb with
    | email s' => rw [EmailPayload.of_injective (Payload.email.inj hp)]
    | _ => cases hp
  | fileSystem s =>
    cases hb with
    | fileSystem s' => rw [FileSystemPayload.of_injective (Payload.fileSystem.inj hp)]
    | _ => cases hp
  | mapReduce s =>
    cases hb with
    | mapReduce s' => rw [MapReducePayload.of_injective (Payload.mapReduce.inj hp)]
    | _ => cases hp
  | shell s =>
    cases hb with
    | shell s' => rw [ShellPayload.of_injective (Payload.shell.inj hp)]
    | _ => cases hp
  | subWorkflow s =>
    cases hb with
    | subWorkflow s' => rw [SubWorkflowPayload.of_injective (Payload.subWorkflow.inj hp)]
    | _ => cases hp

end Payload

namespace Mappings

theorem map_eq_ok {m : Mappings} {a : Action} {mapping : Mapping} {payload : Payload}
    (hfind : m.find? a.kind = some mapping) (ha : mapping a = .ok (some payload)) (node : String) :
    m.map node a = .ok payload := by
  rw [map, hfind]
  show (mapping a >>= _) = _
  rw [ha]
  rfl

theorem copyFields_eq_ok {α : Type} [Form α] {wrap : α → Payload} {a : Action} {j : Json}
    {body : α} (hj : a.toJson? = some j) (hbody : Form.ofJson? j = some body) :
    copyFields wrap a = .ok (some (wrap body)) := by
  rw [copyFields, hj, Option.bind_some, hbody]

/-- An action of a built-in kind gets the payload that carries it. -/
theorem exists_carries {a : Action} (ha : a.kind ∈ Kind.builtIn) (node : String) :
    ∃ payload, standard.map node a = .ok payload ∧ payload.Carries a := by
  obtain ⟨kind, settings⟩ := a
  cases kind with
  | email =>
    have hbody := EmailPayload.ofJson?_toJson settings
    exact ⟨_, map_eq_ok rfl (copyFields_eq_ok rfl hbody) node, .email settings⟩
  | fileSystem =>
    have hbody := FileSystemPayload.ofJson?_toJson settings
    exact ⟨_, map_eq_ok rfl (copyFields_eq_ok rfl hbody) node, .fileSystem settings⟩
  | mapReduce =>
    have hbody := MapReducePayload.ofJson?_toJson settings
    exact ⟨_, map_eq_ok rfl (copyFields_eq_ok rfl hbody) node, .mapReduce settings⟩
  | shell =>
    have hbody := ShellPayload.ofJson?_toJson settings
    exact ⟨_, map_eq_ok rfl (copyFields_eq_ok rfl hbody) node, .shell settings⟩
  | subWorkflow =>
    have hbody := SubWorkflowPayload.ofJson?_toJson settings
    exact ⟨_, map_eq_ok rfl (copyFields_eq_ok rfl hbody) node, .subWorkflow settings⟩
  | custom name => simp [Kind.builtIn] at ha

/-- Every action of a built-in kind has a payload. -/
theorem exists_payload {a : Action} (ha : a.kind ∈ Kind.builtIn) (node : String) :
    ∃ payload, standard.map node a = .ok payload := by
  obtain ⟨payload, hpayload, -⟩ := exists_carries ha node
  exact ⟨payload, hpayload⟩

/-- The standard mappings lose nothing: an action of a built-in kind gets a payload of its kind with
the same in every field, and no other action gets that payload. -/
theorem standard_lossless {a : Action} (ha : a.kind ∈ Kind.builtIn) (node : String) :
    ∃ payload, standard.map node a = .ok payload ∧ payload.kind = a.kind.label ∧
      payload.Carries a ∧
      ∀ b node', b.kind ∈ Kind.builtIn → standard.map node' b = .ok payload → b = a := by
  obtain ⟨payload, hpayload, hcarries⟩ := exists_carries ha node
  refine ⟨payload, hpayload, hcarries.kind_eq, hcarries, fun b node' hb hmap => ?_⟩
  obtain ⟨payload', hpayload', hcarries'⟩ := exists_carries hb node'
  cases hmap.symm.trans hpayload'
  exact hcarries'.unique hcarries

/-- A shell action with an empty prepare block and two properties, the later key first. -/
def sweep : Action where
  kind := .shell
  settings := (
    { prepare := some {}
      configuration := .ofList [("queue", "low"), ("depth", "2")]
      exec := some "sweep.sh"
      arguments := ["", "-v"]
      captureOutput := true } : Shell)

theorem sweep_lossless : sweep.kind ∈ Kind.builtIn ∧
    ∃ payload, standard.map "sweep" sweep = .ok payload ∧ payload.kind = "shell" ∧
      payload.Carries sweep ∧
      ∀ b node', b.kind ∈ Kind.builtIn → standard.map node' b = .ok payload → b = sweep :=
  ⟨by decide, standard_lossless (by decide) "sweep"⟩

end Mappings
end BatchFlow

import BatchFlow.Document
import BatchFlow.Document.Settings
import BatchFlow.Proofs.Json.Reordering

/-!
# Declarations, settings and payloads as JSON

Every record with a JSON form can be read from what it was written as: `forms_lawful`. Each form
writes members under its own keys and no others, and under each key its reader expects what its
writer leaves there. What a writer leaves out, the reader gets by default.

A file-system step is told apart by its tag, so its reader looks for the tag first and reads the
rest as the members of that step.
-/

namespace BatchFlow

open Json

attribute [local simp] List.lookup_append List.lookup_cons

/-! ### Declarations and settings -/

namespace Parameter

theorem isRecord (p : Parameter) : IsRecord keys 0 (Form.toJson p) :=
  ⟨_, rfl, members_single "name" (.str 0 p.name) |>.append
    (members_text "value" 0 p.value) |>.append (members_text "description" 0 p.description)⟩

theorem yields (p : Parameter) : Yields Form.ofJson? (Form.toJson p) p := by
  intro j hj
  obtain ⟨given, hgiven, hres⟩ := (isRecord p).exists_fields? (by decide) false hj
  show (fields? keys false j >>= _) = _
  rw [hgiven]
  simp [hres.required "name" (by simp) (yields_text p.name), hres.text "value" p.value (by simp),
    hres.text "description" p.description (by simp)]

theorem lawful : Lawful Parameter :=
  .of_isRecord (by decide) isRecord (fun _ => by decide) (fun _ => by decide) yields

end Parameter

namespace Global

theorem isRecord (g : Global) : IsRecord keys 1 (Form.toJson g) :=
  ⟨_, rfl, members_text "job-tracker" 1 g.jobTracker |>.append
    (members_text "name-node" 1 g.nameNode) |>.append
    (members_texts "job-xmls" 0 g.jobXmls) |>.append
    (members_keyed "configuration" 0 g.configuration)⟩

theorem yields (g : Global) : Yields Form.ofJson? (Form.toJson g) g := by
  intro j hj
  obtain ⟨given, hgiven, hres⟩ := (isRecord g).exists_fields? (by decide) false hj
  show (fields? keys false j >>= _) = _
  rw [hgiven]
  simp [hres.text "job-tracker" g.jobTracker (by simp), hres.text "name-node" g.nameNode (by simp),
    hres.texts "job-xmls" g.jobXmls (by simp),
    hres.dict "configuration" g.configuration (by decide) (by simp)]

theorem lawful : Lawful Global :=
  .of_isRecord (by decide) isRecord (fun _ => by decide) (fun _ => by decide) yields

end Global

namespace Credential

theorem isRecord (c : Credential) : IsRecord keys 1 (Form.toJson c) :=
  ⟨_, rfl, members_single "name" (.str 1 c.name) |>.append
    (members_single "type" (.str 1 c.sort)) |>.append (members_keyed "properties" 0 c.properties)⟩

theorem yields (c : Credential) : Yields Form.ofJson? (Form.toJson c) c := by
  intro j hj
  obtain ⟨given, hgiven, hres⟩ := (isRecord c).exists_fields? (by decide) false hj
  show (fields? keys false j >>= _) = _
  rw [hgiven]
  simp [hres.required "name" (by simp) (yields_text c.name),
    hres.required "type" (by simp) (yields_text c.sort),
    hres.dict "properties" c.properties (by decide) (by simp)]

theorem lawful : Lawful Credential :=
  .of_isRecord (by decide) isRecord (fun _ => by decide) (fun _ => by decide) yields

end Credential

namespace Settings

theorem isRecord (s : Settings) : IsRecord keys 0 (Form.toJson s) :=
  ⟨_, rfl, members_single "kill-message" (.str 0 s.killMessage)⟩

theorem yields (s : Settings) : Yields Form.ofJson? (Form.toJson s) s := by
  intro j hj
  obtain ⟨given, hgiven, hres⟩ := (isRecord s).exists_fields? (by decide) false hj
  show (fields? keys false j >>= _) = _
  rw [hgiven]
  simp [hres.defaulted "kill-message" (by simp) (yields_text s.killMessage)]

theorem lawful : Lawful Settings :=
  .of_isRecord (by decide) isRecord (fun _ => by decide) (fun _ => by decide) yields

end Settings

/-! ### Payloads -/

namespace PreparePayload

theorem isRecord (p : PreparePayload) : IsRecord keys 1 (Form.toJson p) :=
  ⟨_, rfl, members_texts "deletes" 0 p.deletes |>.append (members_texts "mkdirs" 0 p.mkdirs)⟩

theorem plain (p : PreparePayload) : Plain 2 (Form.toJson p) :=
  p.isRecord.plain (by decide)

theorem yields (p : PreparePayload) : Yields Form.ofJson? (Form.toJson p) p := by
  intro j hj
  obtain ⟨given, hgiven, hres⟩ := (isRecord p).exists_fields? (by decide) true hj
  show (fields? keys true j >>= _) = _
  rw [hgiven]
  simp [hres.texts "deletes" p.deletes (by simp), hres.texts "mkdirs" p.mkdirs (by simp)]

theorem lawful : Lawful PreparePayload :=
  .of_isRecord (by decide) isRecord (fun _ => by decide) (fun _ _ _ => rfl) yields

end PreparePayload

namespace MapReducePayload

theorem isRecord (p : MapReducePayload) : IsRecord keys 2 (Form.toJson p) :=
  ⟨_, rfl, members_text "job-tracker" 2 p.jobTracker |>.append
    (members_text "name-node" 2 p.nameNode) |>.append
    (members_optional "prepare" PreparePayload.plain p.prepare) |>.append
    (members_texts "job-xmls" 1 p.jobXmls) |>.append
    (members_keyed "configuration" 1 p.configuration) |>.append
    (members_text "config-class" 2 p.configClass) |>.append
    (members_texts "files" 1 p.files) |>.append (members_texts "archives" 1 p.archives)⟩

theorem yields (p : MapReducePayload) : Yields Form.ofJson? (Form.toJson p) p := by
  intro j hj
  obtain ⟨given, hgiven, hres⟩ := (isRecord p).exists_fields? (by decide) true hj
  show (fields? keys true j >>= _) = _
  rw [hgiven]
  simp [hres.text "job-tracker" p.jobTracker (by simp), hres.text "name-node" p.nameNode (by simp),
    hres.optional "prepare" p.prepare (by simp) rfl PreparePayload.yields,
    hres.texts "job-xmls" p.jobXmls (by simp),
    hres.dict "configuration" p.configuration (by decide) (by simp),
    hres.text "config-class" p.configClass (by simp), hres.texts "files" p.files (by simp),
    hres.texts "archives" p.archives (by simp)]

theorem lawful : Lawful MapReducePayload :=
  .of_isRecord (by decide) isRecord (fun _ => by decide) (fun _ _ _ => rfl) yields

end MapReducePayload

namespace ShellPayload

theorem isRecord (p : ShellPayload) : IsRecord keys 2 (Form.toJson p) :=
  ⟨_, rfl, members_text "job-tracker" 2 p.jobTracker |>.append
    (members_text "name-node" 2 p.nameNode) |>.append
    (members_optional "prepare" PreparePayload.plain p.prepare) |>.append
    (members_keyed "configuration" 1 p.configuration) |>.append
    (members_text "exec" 2 p.exec) |>.append (members_texts "arguments" 1 p.arguments) |>.append
    (members_texts "environment-variables" 1 p.environmentVariables) |>.append
    (members_texts "files" 1 p.files) |>.append (members_texts "archives" 1 p.archives) |>.append
    (members_flagged "capture-output" 2 p.captureOutput)⟩

theorem yields (p : ShellPayload) : Yields Form.ofJson? (Form.toJson p) p := by
  intro j hj
  obtain ⟨given, hgiven, hres⟩ := (isRecord p).exists_fields? (by decide) true hj
  show (fields? keys true j >>= _) = _
  rw [hgiven]
  simp [hres.text "job-tracker" p.jobTracker (by simp), hres.text "name-node" p.nameNode (by simp),
    hres.optional "prepare" p.prepare (by simp) rfl PreparePayload.yields,
    hres.dict "configuration" p.configuration (by decide) (by simp),
    hres.text "exec" p.exec (by simp), hres.texts "arguments" p.arguments (by simp),
    hres.texts "environment-variables" p.environmentVariables (by simp),
    hres.texts "files" p.files (by simp), hres.texts "archives" p.archives (by simp),
    hres.flag "capture-output" p.captureOutput (by simp)]

theorem lawful : Lawful ShellPayload :=
  .of_isRecord (by decide) isRecord (fun _ => by decide) (fun _ _ _ => rfl) yields

end ShellPayload

namespace FileStep

def tag : FileStep → String
  | delete .. => "delete"
  | mkdir .. => "mkdir"
  | move .. => "move"
  | chmod .. => "chmod"
  | touchz .. => "touchz"

/-- The members that follow the tag. -/
def fields : FileStep → Fields
  | delete path skipTrash => [("path", str path), ("skip-trash", bool skipTrash)]
  | mkdir path => [("path", str path)]
  | move source target => [("source", str source), ("target", str target)]
  | chmod path permissions dirFiles recursive =>
      [("path", str path), ("permissions", str permissions), ("dir-files", bool dirFiles),
        ("recursive", bool recursive)]
  | touchz path => [("path", str path)]

def keys : FileStep → List String
  | delete .. => ["path", "skip-trash"]
  | mkdir .. => ["path"]
  | move .. => ["source", "target"]
  | chmod .. => ["path", "permissions", "dir-files", "recursive"]
  | touchz .. => ["path"]

theorem nodup_keys (s : FileStep) : ("op" :: s.keys).Nodup := by
  cases s <;> simp [keys]

theorem toJson_eq (s : FileStep) : Form.toJson s = obj (("op", str s.tag) :: s.fields) := by
  cases s <;> rfl

theorem members_fields (s : FileStep) : Members s.keys (Plain 0) s.fields := by
  cases s with
  | delete path skipTrash =>
    exact members_single "path" (.str 0 path) |>.append
      (members_single "skip-trash" (.bool 0 skipTrash))
  | mkdir path => exact members_single "path" (.str 0 path)
  | move source target =>
    exact members_single "source" (.str 0 source) |>.append (members_single "target" (.str 0 target))
  | chmod path permissions dirFiles recursive =>
    exact members_single "path" (.str 0 path) |>.append
      (members_single "permissions" (.str 0 permissions)) |>.append
      (members_single "dir-files" (.bool 0 dirFiles)) |>.append
      (members_single "recursive" (.bool 0 recursive))
  | touchz path => exact members_single "path" (.str 0 path)

theorem isRecord (s : FileStep) : IsRecord ("op" :: s.keys) 0 (Form.toJson s) :=
  ⟨_, s.toJson_eq, members_single "op" (.str 0 s.tag) |>.append s.members_fields⟩

/-- The tag is found wherever it stands, and the rest of the members is left. -/
theorem exists_tagged? {tag : String} {fields : Fields} {j : Json}
    (hop : "op" ∉ fields.map Prod.fst) (h : Reordered (obj (("op", str tag) :: fields)) j) :
    ∃ body, tagged? j = some (tag, body) ∧ Reordered (obj fields) body := by
  obtain ⟨inner, outer, rfl, hmembers, hperm⟩ := h.exists_obj
  obtain ⟨m, rest, hm, hrest, rfl⟩ := List.forall₂_cons_left_iff.mp hmembers
  obtain rfl : m = ("op", str tag) := by
    cases hm with
    | same => rfl
    | value _ h => cases h; rfl
  have hne : ∀ m ∈ rest, m.1 ≠ "op" := by
    rintro m hmem heq
    rw [← map_fst_eq_of_forall₂ hrest, ← heq] at hop
    exact hop (List.mem_map_of_mem hmem)
  -- the tag is the only member that the first filter keeps, and the only one that the second drops
  have hnone : rest.filter (fun m => m.1 == "op") = [] :=
    List.filter_eq_nil_iff.mpr fun m hmem => by simpa using hne m hmem
  have hall : rest.filter (fun m => m.1 != "op") = rest :=
    List.filter_eq_self.mpr fun m hmem => by simpa using hne m hmem
  have htag : outer.filter (fun m => m.1 == "op") = [("op", str tag)] := by
    have hfilter := hperm.symm.filter fun m => m.1 == "op"
    rwa [List.filter_cons_of_pos rfl, hnone, List.perm_singleton] at hfilter
  have hbody : rest.Perm (outer.filter fun m => m.1 != "op") := by
    have hfilter := hperm.filter fun m => m.1 != "op"
    rwa [List.filter_cons_of_neg (by simp), hall] at hfilter
  exact ⟨_, by rw [tagged?, htag], .obj hrest hbody⟩

theorem exists_body (s : FileStep) {j : Json} (hj : Reordered (Form.toJson s) j) :
    ∃ body given, tagged? j = some (s.tag, body) ∧ fields? s.keys false body = some given ∧
      Resembles s.fields given := by
  rw [toJson_eq] at hj
  have hkeys := List.nodup_cons.mp s.nodup_keys
  obtain ⟨body, htag, hbody⟩ :=
    exists_tagged? (fun hop => hkeys.1 (s.members_fields.sublist.subset hop)) hj
  obtain ⟨given, hgiven, hres⟩ := s.members_fields.exists_fields? hkeys.2 false hbody
  exact ⟨body, given, htag, hgiven, hres⟩

theorem yields (s : FileStep) : Yields Form.ofJson? (Form.toJson s) s := by
  intro j hj
  obtain ⟨body, given, htag, hgiven, hres⟩ := s.exists_body hj
  show (tagged? j >>= _) = _
  rw [htag]
  cases s with
  | delete path skipTrash =>
    simp only [keys] at hgiven
    simp [tag, hgiven, hres.required "path" rfl (yields_text path),
      hres.defaulted "skip-trash" rfl (yields_flag skipTrash)]
  | mkdir path =>
    simp only [keys] at hgiven
    simp [tag, hgiven, hres.required "path" rfl (yields_text path)]
  | move source target =>
    simp only [keys] at hgiven
    simp [tag, hgiven, hres.required "source" rfl (yields_text source),
      hres.required "target" rfl (yields_text target)]
  | chmod path permissions dirFiles recursive =>
    simp only [keys] at hgiven
    simp [tag, hgiven, hres.required "path" rfl (yields_text path),
      hres.required "permissions" rfl (yields_text permissions),
      hres.defaulted "dir-files" rfl (yields_flag dirFiles),
      hres.defaulted "recursive" rfl (yields_flag recursive)]
  | touchz path =>
    simp only [keys] at hgiven
    simp [tag, hgiven, hres.required "path" rfl (yields_text path)]

theorem lawful : Lawful FileStep :=
  .of_isRecord (by decide) isRecord nodup_keys (fun _ _ _ => rfl) yields

example : parse? FileStep (render .compact
    (obj [("path", str "/tmp"), ("op", str "delete"), ("skip-trash", bool true)])) =
      some (.delete "/tmp" true) := by
  decide +kernel

end FileStep

namespace FileSystemPayload

theorem plain_operations (ops : List FileStep) : Plain 2 (arr (ops.map Form.toJson)) :=
  .arr (List.forall_mem_map.mpr fun s _ => s.isRecord.plain s.nodup_keys)

theorem isRecord (p : FileSystemPayload) : IsRecord keys 2 (Form.toJson p) :=
  ⟨_, rfl, members_text "name-node" 2 p.nameNode |>.append
    (members_texts "job-xmls" 1 p.jobXmls) |>.append
    (members_keyed "configuration" 1 p.configuration) |>.append
    (members_single "operations" (plain_operations p.operations))⟩

theorem yields (p : FileSystemPayload) : Yields Form.ofJson? (Form.toJson p) p := by
  intro j hj
  obtain ⟨given, hgiven, hres⟩ := (isRecord p).exists_fields? (by decide) true hj
  show (fields? keys true j >>= _) = _
  rw [hgiven]
  simp [hres.text "name-node" p.nameNode (by simp), hres.texts "job-xmls" p.jobXmls (by simp),
    hres.dict "configuration" p.configuration (by decide) (by simp),
    hres.defaulted "operations" (by simp) (yields_arr FileStep.yields p.operations)]

theorem lawful : Lawful FileSystemPayload :=
  .of_isRecord (by decide) isRecord (fun _ => by decide) (fun _ _ _ => rfl) yields

end FileSystemPayload

namespace SubWorkflowPayload

theorem isRecord (p : SubWorkflowPayload) : IsRecord keys 1 (Form.toJson p) :=
  ⟨_, rfl, members_text "app-path" 1 p.application |>.append
    (members_flagged "propagate-configuration" 1 p.propagateConfiguration) |>.append
    (members_keyed "configuration" 0 p.configuration)⟩

theorem yields (p : SubWorkflowPayload) : Yields Form.ofJson? (Form.toJson p) p := by
  intro j hj
  obtain ⟨given, hgiven, hres⟩ := (isRecord p).exists_fields? (by decide) true hj
  show (fields? keys true j >>= _) = _
  rw [hgiven]
  simp [hres.text "app-path" p.application (by simp),
    hres.flag "propagate-configuration" p.propagateConfiguration (by simp),
    hres.dict "configuration" p.configuration (by decide) (by simp)]

theorem lawful : Lawful SubWorkflowPayload :=
  .of_isRecord (by decide) isRecord (fun _ => by decide) (fun _ _ _ => rfl) yields

end SubWorkflowPayload

namespace EmailPayload

theorem isRecord (p : EmailPayload) : IsRecord keys 1 (Form.toJson p) :=
  ⟨_, rfl, members_single "to" (.ofTexts 0 p.recipients) |>.append
    (members_texts "cc" 0 p.cc) |>.append (members_texts "bcc" 0 p.bcc) |>.append
    (members_text "subject" 1 p.subject) |>.append (members_text "body" 1 p.body) |>.append
    (members_text "content-type" 1 p.contentType) |>.append
    (members_text "attachment" 1 p.attachment)⟩

theorem yields (p : EmailPayload) : Yields Form.ofJson? (Form.toJson p) p := by
  intro j hj
  obtain ⟨given, hgiven, hres⟩ := (isRecord p).exists_fields? (by decide) true hj
  show (fields? keys true j >>= _) = _
  rw [hgiven]
  simp [hres.defaulted "to" (by simp) (yields_texts p.recipients), hres.texts "cc" p.cc (by simp),
    hres.texts "bcc" p.bcc (by simp), hres.text "subject" p.subject (by simp),
    hres.text "body" p.body (by simp), hres.text "content-type" p.contentType (by simp),
    hres.text "attachment" p.attachment (by simp)]

theorem lawful : Lawful EmailPayload :=
  .of_isRecord (by decide) isRecord (fun _ => by decide) (fun _ _ _ => rfl) yields

end EmailPayload

/-! ### All forms -/

/-- Whatever record is written, it is read again, with its lists and dictionaries in the same
order. -/
theorem forms_lawful :
    Lawful Parameter ∧ Lawful Global ∧ Lawful Credential ∧ Lawful Settings ∧
      Lawful PreparePayload ∧ Lawful MapReducePayload ∧ Lawful ShellPayload ∧
      Lawful FileSystemPayload ∧ Lawful FileStep ∧ Lawful SubWorkflowPayload ∧
      Lawful EmailPayload :=
  ⟨Parameter.lawful, Global.lawful, Credential.lawful, Settings.lawful, PreparePayload.lawful,
    MapReducePayload.lawful, ShellPayload.lawful, FileSystemPayload.lawful, FileStep.lawful,
    SubWorkflowPayload.lawful, EmailPayload.lawful⟩

end BatchFlow

import BatchFlow.Proofs.Document.Forms

/-!
# The text of a document

The JSON text of a document determines the document. From the text one gets the value back that was
written, and each part of the document can be told from that value: what is left out when it is
absent or empty is never written otherwise, the type of an element is given first, and the key of a
payload says which payload it is.

A document may hold bodies of custom kinds, which are any JSON. The numbers in them have to be
integers, since the text of any other number is kept as it was written.
-/

namespace BatchFlow

open Json

attribute [local simp] List.lookup_append List.lookup_cons

/-! ### Custom bodies -/

namespace Payload

/-- The body, if it is of a custom kind. -/
def customBody? : Payload → Option Json
  | other _ body => some body
  | _ => none

/-- The payload without what a custom body holds. -/
def blank : Payload → Payload
  | other kind _ => other kind null
  | payload => payload

end Payload

namespace Element

def customBody? (e : Element) : Option Json :=
  e.action?.bind fun a => a.1.customBody?

def blank (e : Element) : Element :=
  match e.body with
  | .action payload ok error => { e with body := .action payload.blank ok error }
  | _ => e

end Element

namespace Document

/-- The custom bodies in a document. -/
def customBodies (d : Document) : List Json := d.elements.filterMap Element.customBody?

/-- All numbers in custom bodies are integers that 64 bits hold. -/
def Integral (d : Document) : Prop := ∀ body ∈ d.customBodies, every isIntegral body = true

instance (d : Document) : Decidable d.Integral :=
  inferInstanceAs (Decidable (∀ body ∈ d.customBodies, every isIntegral body = true))

/-- The document without what its custom bodies hold: each of them is written as `null`. -/
def blank (d : Document) : Document := { d with elements := d.elements.map Element.blank }

end Document

/-! ### What holds of all parts -/

section

variable {test : Json → Bool} (htest : Lenient test)
include htest

theorem Payload.every_toMember {p : Payload}
    (h : ∀ body ∈ p.customBody?, every test body = true) : every test p.toMember.2 = true := by
  -- only a custom body is anything but plain
  cases p with
  | mapReduce p => exact (p.isRecord.plain (by decide)).every htest
  | shell p => exact (p.isRecord.plain (by decide)).every htest
  | fileSystem p => exact (p.isRecord.plain (by decide)).every htest
  | subWorkflow p => exact (p.isRecord.plain (by decide)).every htest
  | email p => exact (p.isRecord.plain (by decide)).every htest
  | other kind body =>
    have hbody := h body rfl
    simp [toMember, htest.str, htest.obj, hbody]

omit htest in
/-- The key of a payload is none of the other keys of its element. -/
theorem Payload.nodup_keys (p : Payload) :
    ["type", "name", p.toMember.1, "ok", "error"].Nodup := by
  cases p <;> simp [toMember]

theorem Element.every_toJson {e : Element} (h : ∀ body ∈ e.customBody?, every test body = true) :
    every test e.toJson = true := by
  obtain ⟨name, body⟩ := e
  cases body with
  | decision cases default => simp [toJson, htest.str, htest.arr, htest.obj]
  | fork paths => simp [toJson, htest.str, htest.arr, htest.obj]
  | join target => simp [toJson, htest.str, htest.obj]
  | kill message => simp [toJson, htest.str, htest.obj]
  | action payload ok error =>
    have hpayload := Payload.every_toMember htest (p := payload) h
    have hkeys := payload.nodup_keys
    simp [toJson, htest.str, htest.obj, hpayload, hkeys]

/-- A test that the document passes of its own, it passes with its custom bodies if they do. -/
theorem Document.every_toJson {d : Document}
    (h : ∀ body ∈ d.customBodies, every test body = true) : every test d.toJson = true := by
  have hform : ∀ {j n}, Plain n j → every test j = true := fun hj => hj.every htest
  have harr : ∀ {items}, (∀ j ∈ items, every test j = true) → every test (arr items) = true :=
    fun hitems => every_arr.mpr ⟨htest.arr _, hitems⟩
  have hparameters : every test (arr (d.parameters.map Form.toJson)) = true :=
    harr (List.forall_mem_map.mpr fun p _ => hform (p.isRecord.plain (by decide)))
  have hglobal : ∀ g : Global, every test (Form.toJson g) = true :=
    fun g => hform (g.isRecord.plain (by decide))
  have hcredentials : every test (arr (d.credentials.map Form.toJson)) = true :=
    harr (List.forall_mem_map.mpr fun c _ => hform (c.isRecord.plain (by decide)))
  have helements : every test (arr (d.elements.map Element.toJson)) = true :=
    harr (List.forall_mem_map.mpr fun e he => Element.every_toJson htest fun body hbody =>
      h body (List.mem_filterMap.mpr ⟨e, he, hbody⟩))
  have hname : every test (str d.name) = true := htest.str d.name
  have hstart : every test (obj [("to", str d.start)]) = true := by simp [htest.str, htest.obj]
  have hend : every test (obj [("name", str d.finish)]) = true := by simp [htest.str, htest.obj]
  have hmembers := members_single (p := fun j => every test j = true) "name" hname |>.append
    (members_listed "parameters" (fun ps => arr (ps.map Form.toJson)) hparameters) |>.append
    (members_optional "global" hglobal d.global) |>.append
    (members_listed "credentials" (fun cs => arr (cs.map Form.toJson)) hcredentials) |>.append
    (members_single "start" hstart |>.append (members_single "elements" helements) |>.append
      (members_single "end" hend))
  exact hmembers.every_obj htest (by decide)

end

/-! ### Telling values apart -/

theorem Payload.toMember_injective : Function.Injective toMember := by
  intro p q h
  cases p with
  | mapReduce body =>
    cases q with
    | mapReduce body' => rw [MapReducePayload.lawful.toJson_injective (Prod.mk.inj h).2]
    | _ => simp [toMember] at h
  | shell body =>
    cases q with
    | shell body' => rw [ShellPayload.lawful.toJson_injective (Prod.mk.inj h).2]
    | _ => simp [toMember] at h
  | fileSystem body =>
    cases q with
    | fileSystem body' => rw [FileSystemPayload.lawful.toJson_injective (Prod.mk.inj h).2]
    | _ => simp [toMember] at h
  | subWorkflow body =>
    cases q with
    | subWorkflow body' => rw [SubWorkflowPayload.lawful.toJson_injective (Prod.mk.inj h).2]
    | _ => simp [toMember] at h
  | email body =>
    cases q with
    | email body' => rw [EmailPayload.lawful.toJson_injective (Prod.mk.inj h).2]
    | _ => simp [toMember] at h
  | other kind body =>
    cases q with
    | other kind' body' => simpa [toMember] using h
    | _ => simp [toMember] at h

theorem Element.toJson_injective : Function.Injective toJson := by
  rintro ⟨name, body⟩ ⟨name', body'⟩ h
  cases body with
  | decision cases default =>
    cases body' with
    | decision cases' default' =>
      have hcase : Function.Injective fun c : Case =>
          obj [("to", str c.target), ("condition", str c.condition)] := by
        rintro ⟨target, condition⟩ ⟨target', condition'⟩ hc
        simpa using hc
      simpa [toJson, typeName, (List.map_injective_iff.mpr hcase).eq_iff] using h
    | _ => simp [toJson, typeName] at h
  | fork paths =>
    cases body' with
    | fork paths' =>
      have hpath : Function.Injective fun p : String => obj [("start", str p)] := by
        intro p p' hp
        simpa using hp
      simpa [toJson, typeName, (List.map_injective_iff.mpr hpath).eq_iff] using h
    | _ => simp [toJson, typeName] at h
  | join target =>
    cases body' with
    | join target' => simpa [toJson, typeName] using h
    | _ => simp [toJson, typeName] at h
  | kill message =>
    cases body' with
    | kill message' => simpa [toJson, typeName] using h
    | _ => simp [toJson, typeName] at h
  | action payload ok error =>
    cases body' with
    | action payload' ok' error' =>
      simpa [toJson, typeName, Payload.toMember_injective.eq_iff] using h
    | _ => simp [toJson, typeName] at h

theorem Document.toJson_injective : Function.Injective toJson := by
  intro d e h
  have hlookup := fun key => congrArg (List.lookup key) (Json.obj.inj h)
  have hname : d.name = e.name := by simpa using hlookup "name"
  have hparameters : d.parameters = e.parameters :=
    listed_inj "parameters" (arr_map_injective Parameter.lawful.toJson_injective)
      (by simpa using hlookup "parameters")
  have hglobal : d.global = e.global :=
    optional_inj "global" Global.lawful.toJson_injective
      (by simpa using hlookup "global")
  have hcredentials : d.credentials = e.credentials :=
    listed_inj "credentials" (arr_map_injective Credential.lawful.toJson_injective)
      (by simpa using hlookup "credentials")
  have hstart : d.start = e.start := by simpa using hlookup "start"
  have helements : d.elements = e.elements :=
    arr_map_injective Element.toJson_injective (by simpa using hlookup "elements")
  have hfinish : d.finish = e.finish := by simpa using hlookup "end"
  cases d
  cases e
  simp_all

/-! ### The text -/

theorem Element.eq_null_of_mem_blank {e : Element} {body : Json}
    (h : body ∈ e.blank.customBody?) : body = null := by
  obtain ⟨name, b⟩ := e
  cases b with
  | action payload ok error =>
    cases payload with
    | other kind body' => exact (Option.some.inj h).symm
    | _ => cases h
  | _ => cases h

namespace Document

theorem eq_null_of_mem_blank {d : Document} {body : Json} (h : body ∈ d.blank.customBodies) :
    body = null := by
  obtain ⟨e, he, hbody⟩ := List.mem_filterMap.mp h
  obtain ⟨e, -, rfl⟩ := List.mem_map.mp he
  exact Element.eq_null_of_mem_blank hbody

/-- The text of the document, in either layout, tells everything about the document. -/
structure Legible (d : Document) : Prop where
  /-- Both layouts are read as the value that was written. -/
  read : ∀ layout, read? (d.render layout) = some d.toJson
  /-- So they are by a reader that bounds the nesting, if the document stays within the bound. -/
  read_within : ∀ layout n, depth d.toJson ≤ n → readWithin? n (d.render layout) = some d.toJson
  /-- No key is repeated outside the custom bodies. -/
  distinct_outside : every hasDistinctKeys d.blank.toJson = true
  /-- No key is repeated at all if none is in a custom body. -/
  distinct : (∀ body ∈ d.customBodies, every hasDistinctKeys body = true) →
    every hasDistinctKeys d.toJson = true
  /-- No other document has the same text. -/
  unique : ∀ (e : Document) layout, e.Integral → e.render layout = d.render layout → e = d

/-- The text of a document determines it, whatever its elements and payloads are. -/
theorem legible_of_integral {d : Document} (hd : d.Integral) : d.Legible := by
  have hintegral := every_toJson lenient_isIntegral hd
  refine ⟨fun layout => read?_render layout hintegral,
    fun layout n hn => readWithin?_render layout hn hintegral,
    every_toJson lenient_hasDistinctKeys fun body hbody => ?_,
    every_toJson lenient_hasDistinctKeys, fun e layout he heq => ?_⟩
  · rw [eq_null_of_mem_blank hbody]
    rfl
  · -- the one text is read as the value of either document
    have hread := read?_render layout (every_toJson lenient_isIntegral he)
    change read? (e.render layout) = _ at hread
    rw [heq, render, read?_render layout hintegral] at hread
    exact (toJson_injective (Option.some.inj hread)).symm

/-- A document with a custom body, in which a key is repeated, and with an empty global section. -/
def nightly : Document where
  name := "nightly"
  global := some {}
  start := "load"
  elements :=
    [⟨"load", .action (.other "spark" (obj [("cores", int 4), ("cores", arr [int (-1), null])]))
        "done" "failed"⟩,
      ⟨"failed", .kill "\"load\" failed\n"⟩]
  finish := "done"

theorem nightly_legible : nightly.Integral ∧ nightly.Legible :=
  ⟨by decide, legible_of_integral (by decide)⟩

end Document
end BatchFlow

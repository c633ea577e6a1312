import BatchFlow.Proofs.Builder.Fields
import Mathlib.Data.List.Induction

/-!
# The first call on a key decides

A draft of a configuration holds a field for each key that it has met, for removed keys and for keys
that were set in vain as well, and such fields do not show. What shows is told by the calls alone:
each key is as the first call on it says, the properties that were there before stay in their order,
and the new ones follow in the order of these first calls.

The order comes out of the keys and the values apart. The keys of the draft are followed call by
call; what its fields hold is the general law of write-once fields.
-/

namespace BatchFlow
namespace Configuration

/-- What calls make of a property that was there before. -/
def kept (es : List Edit) (p : String × String) : Option (String × String) :=
  match es.find? fun e => e.key = p.1 with
  | none => some p
  | some (.set _ value) => some (p.1, value)
  | some (.remove _) => none

/-- The property that calls make of a key that was not there before. -/
def added (es : List Edit) (key : String) : Option (String × String) :=
  match es.find? fun e => e.key = key with
  | none => none
  | some (.set _ value) => some (key, value)
  | some (.remove _) => none

/-- The properties after calls: those that were there before, then the new ones in the order of the
first calls on them. -/
def edited (existing : Configuration) (es : List Edit) : List (String × String) :=
  existing.entries.filterMap (kept es) ++
    ((es.map Edit.key).eraseDups.filter (· ∉ existing.keys)).filterMap (added es)

namespace Draft

/-- Every text is a field, since it might be a key. -/
@[reducible] def slots : Slots Draft Edit where
  Field := String
  decEq := inferInstance
  Value _ := String
  text := propertyText
  slot := slot
  put d key w := d.insert key w
  move e := .modify e.key e.value?
  apply := apply

theorem slots_lawful : slots.Lawful where
  exists_call key value := ⟨.set key value, rfl⟩
  apply_eq {e f v} he s := by
    cases he
    rfl
  change_eq he := by cases he
  slot_put_self := slot_insert_self
  slot_put_of_ne := slot_insert_of_ne
  put_slot := insert_slot
  slot_eq he := by cases he

variable {d : Draft}

/-! ## The keys of a draft -/

/-- A call leaves a field for its key, at the end if the key is new. -/
theorem keys_leave (d : Draft) (e : Edit) :
    (leave (slots.call e) d).keys = if e.key ∈ d.keys then d.keys else d.keys ++ [e.key] := by
  rw [slots_lawful.call_eq, leave_attempt]
  cases hm : (slot d e.key).modified with
  | true =>
    have hthere : e.key ∈ d.keys := Dict.exists_get?_iff.mp ⟨_, get?_of_modified hm⟩
    rw [slots_lawful.apply_of_modified (f := e.key) rfl hm, if_pos hthere]
  | false =>
    rw [slots_lawful.apply_of_unmodified (f := e.key) rfl hm]
    exact Dict.keys_insert ..

/-- A key that occurred already is left out. -/
theorem eraseDups_concat (keys : List String) (key : String) : (keys ++ [key]).eraseDups =
    if key ∈ keys then keys.eraseDups else keys.eraseDups ++ [key] := by
  rw [List.eraseDups_append]
  by_cases hmet : key ∈ keys
  · simp [List.removeAll, hmet]
  · simp [List.removeAll, hmet, List.eraseDups_cons]

/-- The keys after calls: those that were there, then the new ones as they were first called on. -/
theorem keys_after (d : Draft) (es : List Edit) : (slots.after d es).keys =
    d.keys ++ (es.map Edit.key).eraseDups.filter (· ∉ d.keys) := by
  induction es using List.reverseRecOn with
  | nil => simp [Slots.after]
  | append_singleton es e ih =>
    have hstep : slots.after d (es ++ [e]) = leave (slots.call e) (slots.after d es) :=
      List.foldl_concat ..
    rw [hstep, keys_leave, ih, List.map_append, List.map_singleton, eraseDups_concat]
    by_cases hthere : e.key ∈ d.keys <;> by_cases hmet : e.key ∈ es.map Edit.key <;>
      simp [hthere, hmet]

/-! ## The values of its fields -/

theorem entries_build (d : Draft) :
    d.build.entries = d.keys.filterMap fun key => (slot d key).value.map (key, ·) := by
  rw [build, Dict.entries_present, Dict.entries_map, Dict.keys, List.filterMap_map,
    List.filterMap_map]
  refine List.filterMap_congr fun p hp => ?_
  have hget : d.get? p.1 = some p.2 := Dict.get?_eq_some_iff.mpr hp
  simp [slot, hget]

theorem exists_value_of_mem_keys {key : String} (h : key ∈ d.build.keys) :
    ∃ value, (slot d key).value = some value := by
  obtain ⟨value, hvalue⟩ := Dict.exists_get?_iff.mpr h
  exact ⟨value, (get?_build d key).symm.trans hvalue⟩

theorem on_iff {e : Edit} {key : String} : slots.On e key ↔ e.key = key := by
  constructor
  · rintro ⟨v, hv⟩
    cases hv
    rfl
  · rintro rfl
    exact ⟨e.value?, rfl⟩

theorem valueOn_eq (key : String) (e : Edit) :
    slots.valueOn key e = if e.key = key then some e.value? else none := by
  by_cases h : e.key = key
  · rw [if_pos h, Slots.valueOn_eq_some_iff, ← h]
  · rw [if_neg h, Slots.valueOn_eq_none_iff, on_iff]
    exact h

theorem findSome?_valueOn (es : List Edit) (key : String) :
    es.findSome? (slots.valueOn key) = (es.find? fun e => e.key = key).map Edit.value? := by
  induction es with
  | nil => rfl
  | cons e rest ih =>
    rw [List.findSome?_cons, List.find?_cons, ih, valueOn_eq]
    by_cases h : e.key = key <;> simp [h]

theorem value_after (hd : ∀ key, (slot d key).modified = false) (es : List Edit) (key : String) :
    (slot (slots.after d es) key).value =
      ((es.find? fun e => e.key = key).map Edit.value?).getD (slot d key).value := by
  rw [← findSome?_valueOn]
  exact (slots_lawful.disciplined hd).value_eq es key

end Draft

/-- The first call on each key decides, in a draft over these properties. -/
structure FirstCallsDecide (existing : Configuration) (d : Draft) : Prop where
  refused_iff : ∀ es e,
    (∃ d', Draft.slots.call e (Draft.slots.after d es) =
      .error (.alreadySet (propertyText e.key)) d') ↔ ∃ e' ∈ es, e'.key = e.key
  /-- There is no other error. -/
  accepted : ∀ es e, (∀ e' ∈ es, e'.key ≠ e.key) →
    ∃ d', Draft.slots.call e (Draft.slots.after d es) = .ok () d'
  unchanged : ∀ es e x d', Draft.slots.call e (Draft.slots.after d es) = .error x d' →
    d' = Draft.slots.after d es
  entries_eq : ∀ es, (Draft.slots.after d es).build.entries = existing.edited es
  /-- A key whose first call removes it stays away, whatever calls follow. -/
  removed : ∀ es more key, es.find? (fun e => e.key = key) = some (.remove key) →
    key ∉ (Draft.slots.after d (es ++ more)).build.keys

/-! ## A draft over existing properties -/

variable (existing : Configuration)

theorem modified_ofConfiguration (key : String) :
    (Draft.slot (.ofConfiguration existing) key).modified = false := by
  rw [Draft.slot_ofConfiguration]
  rfl

theorem value_after (es : List Edit) (key : String) :
    (Draft.slot (Draft.slots.after (.ofConfiguration existing) es) key).value =
      ((es.find? fun e => e.key = key).map Edit.value?).getD (existing.get? key) := by
  rw [Draft.value_after (modified_ofConfiguration existing), Draft.slot_ofConfiguration]
  rfl

theorem entries_build_after (es : List Edit) :
    (Draft.slots.after (.ofConfiguration existing) es).build.entries = existing.edited es := by
  have hkeys : (Draft.ofConfiguration existing).keys = existing.keys := Dict.keys_map ..
  simp only [Draft.entries_build, Draft.keys_after, hkeys, value_after]
  rw [List.filterMap_append, edited, Dict.keys, List.filterMap_map]
  congr 1
  · refine List.filterMap_congr fun p hp => ?_
    have hget : existing.get? p.1 = some p.2 := Dict.get?_eq_some_iff.mpr hp
    simp only [Function.comp_apply, hget, kept]
    cases es.find? fun e => e.key = p.1 with
    | none => rfl
    | some e => cases e <;> rfl
  · refine List.filterMap_congr fun key hkey => ?_
    have hnone : existing.get? key = none := by
      have hnew : key ∉ existing.keys := of_decide_eq_true (List.mem_filter.mp hkey).2
      rw [Option.eq_none_iff_forall_ne_some]
      exact fun value hvalue => hnew (Dict.exists_get?_iff.mp ⟨value, hvalue⟩)
    simp only [hnone, added]
    cases es.find? fun e => e.key = key with
    | none => rfl
    | some e => cases e <;> rfl

theorem ofConfiguration_firstCallsDecide :
    existing.FirstCallsDecide (.ofConfiguration existing) := by
  have hlaw := Draft.slots_lawful.disciplined (modified_ofConfiguration existing)
  constructor
  case refused_iff =>
    intro es e
    rw [hlaw.refused_iff es e e.key (Draft.on_iff.mpr rfl)]
    simp only [Draft.on_iff]
  case accepted =>
    intro es e hnone
    refine hlaw.accepted es e e.key (Draft.on_iff.mpr rfl) fun e' he' hon => ?_
    exact hnone e' he' (Draft.on_iff.mp hon)
  case unchanged => exact hlaw.unchanged
  case entries_eq => exact entries_build_after existing
  case removed =>
    intro es more key hfirst hmem
    obtain ⟨value, hvalue⟩ := Draft.exists_value_of_mem_keys hmem
    rw [value_after, List.find?_append, hfirst] at hvalue
    cases hvalue

/-- Whatever properties a draft starts with, if any, each key is as the first call on it says. -/
theorem first_calls_decide :
    (∀ existing : Configuration, existing.FirstCallsDecide (.ofConfiguration existing)) ∧
      FirstCallsDecide {} {} :=
  ⟨ofConfiguration_firstCallsDecide, ofConfiguration_firstCallsDecide {}⟩

/-- A property that is dropped and cannot be set again, one that is set, one that is removed although
it was never there, and two new ones around them. -/
example :
    let existing : Configuration := .ofList [("keep", "1"), ("drop", "2"), ("stay", "3")]
    (Draft.slots.after (.ofConfiguration existing) [.set "early" "4", .remove "drop", .remove "void",
      .set "drop" "5", .set "keep" "6", .set "late" "7", .set "void" "8", .set "early" "9"]).build =
      .ofList [("keep", "6"), ("stay", "3"), ("early", "4"), ("late", "7")] := by
  decide

end Configuration
end BatchFlow

import BatchFlow.Proofs.Json.Reading
import BatchFlow.Proofs.Json.Records
import BatchFlow.Proofs.Outcome

/-!
# Records in another order

The members of a record may be given in any order, and so may those of the records in it. A
dictionary is an object too, but the order of its members is part of what it says. `Reordered`
relates a value to those that differ from it in the order of members outside dictionaries.

A form is lawful if a record can be read from its own value after any reordering, and from the text
of any such value. For the text it is enough that the record's members are plain ones with keys of
its own, and for the value that under each key there is what its reader expects.
-/

namespace BatchFlow
namespace Json

/-- The keys under which records keep dictionaries. -/
def dictionaryKeys : List String := ["configuration", "properties"]

mutual

/-- The two values differ at most in the order of members outside dictionaries. -/
inductive Reordered : Json → Json → Prop
  | same (j : Json) : Reordered j j
  | arr {items items' : List Json} (h : List.Forall₂ Reordered items items') :
      Reordered (arr items) (arr items')
  | obj {members inner outer : List (String × Json)}
      (h : List.Forall₂ ReorderedMember members inner) (hperm : inner.Perm outer) :
      Reordered (obj members) (obj outer)

/-- The two members have the same key, and their values differ at most in such an order. -/
inductive ReorderedMember : String × Json → String × Json → Prop
  | same (m : String × Json) : ReorderedMember m m
  | value {key : String} {j j' : Json} (hkey : key ∉ dictionaryKeys) (h : Reordered j j') :
      ReorderedMember (key, j) (key, j')

end

section

variable {j : Json} {items : List Json} {members inner : List (String × Json)}
  {m m' : String × Json} {n : Nat}

theorem ReorderedMember.key_eq (h : ReorderedMember m m') : m'.1 = m.1 := by
  cases h <;> rfl

theorem ReorderedMember.reordered (h : ReorderedMember m m') : Reordered m.2 m'.2 := by
  cases h with
  | same => exact .same _
  | value _ h => exact h

/-- A dictionary stays as it is. -/
theorem ReorderedMember.eq_of_mem (hkey : m.1 ∈ dictionaryKeys) (h : ReorderedMember m m') :
    m' = m := by
  cases h with
  | same => rfl
  | value hkey' _ => exact absurd hkey hkey'

theorem Reordered.exists_arr (h : Reordered (.arr items) j) :
    ∃ items', j = .arr items' ∧ List.Forall₂ Reordered items items' := by
  cases h with
  | same => exact ⟨items, rfl, List.forall₂_same.mpr fun _ _ => .same _⟩
  | arr h => exact ⟨_, rfl, h⟩

theorem Reordered.exists_obj (h : Reordered (.obj members) j) :
    ∃ inner outer, j = .obj outer ∧ List.Forall₂ ReorderedMember members inner ∧
      inner.Perm outer := by
  cases h with
  | same =>
    have hsame := List.forall₂_same.mpr fun (m : String × Json) (_ : m ∈ members) =>
      ReorderedMember.same m
    exact ⟨members, members, rfl, hsame, .refl _⟩
  | obj h hperm => exact ⟨_, _, rfl, h, hperm⟩

theorem map_fst_eq_of_forall₂ (h : List.Forall₂ ReorderedMember members inner) :
    inner.map Prod.fst = members.map Prod.fst := by
  induction h with
  | nil => rfl
  | cons hm _ ih => rw [List.map_cons, List.map_cons, hm.key_eq, ih]

theorem Plain.reordered (hj : Plain n j) : ∀ {j' : Json}, Reordered j j' → Plain n j' := by
  induction hj with
  | str | bool =>
    rintro _ ⟨⟩
    constructor
  | arr _ ih =>
    intro j' h
    obtain ⟨items', rfl, hitems⟩ := h.exists_arr
    refine .arr fun j' hj' => ?_
    obtain ⟨j, hmem, hrel⟩ := exists_of_mem_right hitems hj'
    exact ih j hmem hrel
  | obj hkeys _ ih =>
    intro j' h
    obtain ⟨inner, outer, rfl, hmembers, hperm⟩ := h.exists_obj
    refine .obj ?_ fun m' hm' => ?_
    · rwa [← (hperm.map Prod.fst).nodup_iff, map_fst_eq_of_forall₂ hmembers]
    · obtain ⟨m, hmem, hrel⟩ := exists_of_mem_right hmembers (hperm.mem_iff.mpr hm')
      exact ih m hmem hrel.reordered

end

/-! ### Reading a value in any order -/

/-- The reader gets the datum from the value in any order. -/
def Yields {α : Type} (read : Json → Option α) (v : Json) (a : α) : Prop :=
  ∀ v', Reordered v v' → read v' = some a

section

variable {α : Type} {read : Json → Option α} {write : α → Json}

theorem yields_text (text : String) : Yields asText? (str text) text := by
  rintro _ ⟨⟩
  rfl

theorem yields_flag (b : Bool) : Yields asFlag? (bool b) b := by
  rintro _ ⟨⟩
  rfl

theorem yields_arr (h : ∀ a, Yields read (write a) a) (as : List α) :
    Yields (asList? read) (arr (as.map write)) as := by
  intro v' hv'
  obtain ⟨items, rfl, hitems⟩ := hv'.exists_arr
  rw [List.forall₂_map_left_iff] at hitems
  clear hv'
  rw [asList?]
  -- item by item, each side by side with the item that it became
  induction hitems with
  | nil => rfl
  | @cons a j as items haj _ ih => simp [h a j haj, ih]

theorem yields_texts (texts : List String) : Yields (asList? asText?) (ofTexts texts) texts :=
  yields_arr yields_text texts

/-- Where there is something to read, an optional reader reads it. -/
theorem Yields.option {v : Json} {a : α} (hnull : read null = none) (h : Yields read v a) :
    Yields (asOption? read) v (some a) := by
  intro v' hv'
  have hread := h v' hv'
  unfold asOption?
  split
  · rw [hnull] at hread
    cases hread
  · rw [hread, Option.map_some]

end

/-! ### Members in any order -/

/-- The order of entries makes no difference to a lookup. -/
theorem lookup_perm {α : Type} {entries entries' : List (String × α)}
    (hnodup : (entries.map Prod.fst).Nodup) (h : entries.Perm entries') (key : String) :
    entries.lookup key = entries'.lookup key := by
  refine Option.ext fun v => ?_
  have hnodup' : (entries'.map Prod.fst).Nodup := (h.map Prod.fst).nodup_iff.mp hnodup
  rw [Dict.lookup_eq_some_iff_mem hnodup, Dict.lookup_eq_some_iff_mem hnodup', h.mem_iff]

/-- What is given under a key is what the record wrote there, in some order. -/
structure Resembles (fields given : Fields) : Prop where
  lookup_none : ∀ {key}, fields.lookup key = none → given.lookup key = none
  lookup_some : ∀ {key v}, fields.lookup key = some v →
    ∃ v', given.lookup key = some v' ∧ ReorderedMember (key, v) (key, v')

theorem Resembles.of_forall₂ {fields inner : Fields}
    (h : List.Forall₂ ReorderedMember fields inner) : Resembles fields inner := by
  induction h with
  | nil => exact ⟨fun _ => rfl, fun h => by cases h⟩
  | @cons m m' fields inner hm _ ih =>
    obtain ⟨key, v⟩ := m
    obtain ⟨key', v'⟩ := m'
    obtain rfl : key' = key := hm.key_eq
    -- the keys agree, so both lookups stop at this member or both go on
    constructor
    · intro k hk
      rw [List.lookup_cons] at hk ⊢
      split at hk
      · cases hk
      · exact ih.lookup_none hk
    · intro k w hk
      rw [List.lookup_cons] at hk ⊢
      split at hk
      · rename_i heq
        obtain rfl : k = key' := by simpa using heq
        cases hk
        exact ⟨v', rfl, hm⟩
      · exact ih.lookup_some hk

theorem Resembles.perm {fields inner outer : Fields} (h : Resembles fields inner)
    (hnodup : (inner.map Prod.fst).Nodup) (hperm : inner.Perm outer) : Resembles fields outer where
  lookup_none hnone := (lookup_perm hnodup hperm _).symm.trans (h.lookup_none hnone)
  lookup_some hsome := by
    obtain ⟨v', hv', hm⟩ := h.lookup_some hsome
    exact ⟨v', (lookup_perm hnodup hperm _).symm.trans hv', hm⟩

/-- Reordering adds no key. -/
theorem Members.mem_keys {keys : List String} {p : Json → Prop} {fields inner outer : Fields}
    (hm : Members keys p fields) (hmembers : List.Forall₂ ReorderedMember fields inner)
    (hperm : inner.Perm outer) : ∀ m ∈ outer, m.1 ∈ keys := by
  intro m hmem
  have hinner : m.1 ∈ inner.map Prod.fst := List.mem_map_of_mem (hperm.mem_iff.mpr hmem)
  rw [map_fst_eq_of_forall₂ hmembers] at hinner
  exact hm.sublist.subset hinner

/-- A record finds its members in any order. -/
theorem Members.exists_fields? {keys : List String} {p : Json → Prop} {fields : Fields} {j : Json}
    (hm : Members keys p fields) (hkeys : keys.Nodup) (closed : Bool)
    (h : Reordered (obj fields) j) :
    ∃ given, fields? keys closed j = some given ∧ Resembles fields given := by
  obtain ⟨inner, outer, rfl, hmembers, hperm⟩ := h.exists_obj
  have hnodup : (inner.map Prod.fst).Nodup :=
    (map_fst_eq_of_forall₂ hmembers).symm ▸ hm.nodup hkeys
  have hnodup' : (outer.map Prod.fst).Nodup := (hperm.map Prod.fst).nodup_iff.mp hnodup
  exact ⟨outer, fields?_of_mem (hm.mem_keys hmembers hperm) hnodup' closed,
    (Resembles.of_forall₂ hmembers).perm hnodup hperm⟩

namespace Resembles

variable {α : Type} {read : Json → Option α} {default a : α} {v : Json} {fields given : Fields}

theorem required (h : Resembles fields given) (key : String) (hv : fields.lookup key = some v)
    (hread : Yields read v a) : required key read given = some a := by
  obtain ⟨v', hv', hm⟩ := h.lookup_some hv
  rw [Json.required, hv', Option.bind_some, hread v' hm.reordered]

theorem defaulted (h : Resembles fields given) (key : String) (hv : fields.lookup key = some v)
    (hread : Yields read v a) : defaulted key read default given = some a := by
  obtain ⟨v', hv', hm⟩ := h.lookup_some hv
  rw [Json.defaulted, hv']
  exact hread v' hm.reordered

theorem absent (h : Resembles fields given) (key : String) (hv : fields.lookup key = none) :
    Json.defaulted key read default given = some default := by
  rw [Json.defaulted, h.lookup_none hv]

theorem optional (h : Resembles fields given) (key : String) (o : Option α) {write : α → Json}
    (ho : fields.lookup key = (optional key write o).lookup key) (hnull : read null = none)
    (hread : ∀ a, Yields read (write a) a) :
    Json.defaulted key (asOption? read) none given = some o := by
  cases o with
  | none => exact h.absent key ho
  | some a => exact h.defaulted key (ho.trans List.lookup_cons_self) ((hread a).option hnull)

theorem text (h : Resembles fields given) (key : String) (o : Option String)
    (ho : fields.lookup key = (Json.optional key str o).lookup key) :
    Json.defaulted key (asOption? asText?) none given = some o :=
  h.optional key o ho rfl yields_text

theorem texts (h : Resembles fields given) (key : String) (texts : List String)
    (htexts : fields.lookup key = (listed key ofTexts texts).lookup key) :
    Json.defaulted key (asList? asText?) [] given = some texts := by
  cases texts with
  | nil => exact h.absent key htexts
  | cons text rest =>
    exact h.defaulted key (htexts.trans List.lookup_cons_self) (yields_texts (text :: rest))

theorem dict (h : Resembles fields given) (key : String) (d : Dict String)
    (hkey : key ∈ dictionaryKeys) (hd : fields.lookup key = (keyed key d).lookup key) :
    Json.defaulted key asDict? {} given = some d := by
  unfold Json.keyed at hd
  split at hd
  · rename_i hempty
    have hentries : d.entries = [] := List.isEmpty_iff.mp hempty
    rw [h.absent key hd, Dict.ext (hentries.trans Dict.entries_empty.symm)]
    rfl
  · obtain ⟨v', hv', hm⟩ := h.lookup_some (hd.trans List.lookup_cons_self)
    cases hm.eq_of_mem hkey
    rw [Json.defaulted, hv']
    exact asDict?_ofDict d

theorem flag (h : Resembles fields given) (key : String) (b : Bool)
    (hb : fields.lookup key = (flagged key b).lookup key) :
    Json.defaulted key asFlag? false given = some b := by
  cases b with
  | false => exact h.absent key hb
  | true => exact h.defaulted key (hb.trans List.lookup_cons_self) (yields_flag true)

end Resembles

/-! ### Lawful forms -/

/-- Reading a record undoes writing it, by way of the value and by way of the text in either layout,
and whatever the order of members. -/
structure Lawful (α : Type) [Form α] : Prop where
  ofJson? : ∀ {a : α} {j : Json}, Reordered (Form.toJson a) j → Form.ofJson? j = some a
  parse? : ∀ {a : α} {j : Json} (layout : Layout), Reordered (Form.toJson a) j →
    parse? α (j.render layout) = some a

theorem Lawful.toJson_injective {α : Type} [Form α] (h : Lawful α) :
    Function.Injective (Form.toJson : α → Json) := by
  intro a b hab
  have ha := h.ofJson? (.same (Form.toJson a))
  rw [hab, h.ofJson? (.same (Form.toJson b))] at ha
  exact (Option.some.inj ha).symm

/-- The value is an object of plain members with these keys. -/
def IsRecord (keys : List String) (n : Nat) (j : Json) : Prop :=
  ∃ fields, j = obj fields ∧ Members keys (Plain n) fields

theorem IsRecord.exists_fields? {keys : List String} {n : Nat} {fields : Fields} {j : Json}
    (h : IsRecord keys n (obj fields)) (hkeys : keys.Nodup) (closed : Bool)
    (hj : Reordered (obj fields) j) :
    ∃ given, Json.fields? keys closed j = some given ∧ Resembles fields given := by
  obtain ⟨_, heq, hm⟩ := h
  cases heq
  exact hm.exists_fields? hkeys closed hj

theorem IsRecord.plain {keys : List String} {n : Nat} {j : Json} (h : IsRecord keys n j)
    (hkeys : keys.Nodup) : Plain (n + 1) j := by
  obtain ⟨fields, rfl, hm⟩ := h
  exact hm.plain_obj hkeys

variable {α : Type} [Form α]

/-- The text of a record reads as its value does, if all its keys are kept. -/
theorem IsRecord.parse?_render {keys : List String} {n : Nat} {j j' : Json}
    (h : IsRecord keys n j) (hkeys : keys.Nodup) (hn : n < maxDepth)
    (hkeep : ∀ key ∈ keys, Form.keeps α key = true) (hj : Reordered j j') (layout : Layout) :
    parse? α (j'.render layout) = Form.ofJson? j' := by
  have hplain : Plain (n + 1) j' := (h.plain hkeys).reordered hj
  obtain ⟨fields, rfl, hm⟩ := h
  obtain ⟨inner, outer, rfl, hmembers, hperm⟩ := hj.exists_obj
  have houter : ∀ m ∈ outer, Form.keeps α m.1 = true :=
    fun m hmem => hkeep m.1 (hm.mem_keys hmembers hperm m hmem)
  rw [Json.parse?, readKeeping?_render layout houter (Nat.le_trans hplain.depth_le hn)
    (hplain.every lenient_isIntegral), Option.bind_some]

/-- A form is lawful if its values are records and can be read in any order. -/
theorem Lawful.of_isRecord {keys : α → List String} {n : Nat} (hn : n < maxDepth)
    (hrecord : ∀ a : α, IsRecord (keys a) n (Form.toJson a)) (hkeys : ∀ a, (keys a).Nodup)
    (hkeep : ∀ a, ∀ key ∈ keys a, Form.keeps α key = true)
    (hread : ∀ a : α, Yields Form.ofJson? (Form.toJson a) a) : Lawful α where
  ofJson? {a j} := hread a j
  parse? {a j} layout hj := by
    rw [(hrecord a).parse?_render (hkeys a) hn (hkeep a) hj layout, hread a j hj]

end Json
end BatchFlow

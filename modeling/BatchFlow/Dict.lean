/-!
# Ordered dictionaries

Text keys with values, in insertion order. Writing a key that is present replaces the value and
keeps the key's place; a new key goes to the end. The keys are distinct, which is part of the type.
-/

namespace BatchFlow

/-- Distinct text keys with values, in the order the keys were first written. -/
structure Dict (α : Type) where
  entries : List (String × α)
  nodup : (entries.map Prod.fst).Nodup
  deriving DecidableEq

namespace Dict

variable {α β : Type}

def empty : Dict α := ⟨[], List.nodup_nil⟩

instance : EmptyCollection (Dict α) := ⟨empty⟩

instance : Inhabited (Dict α) := ⟨empty⟩

def keys (d : Dict α) : List String := d.entries.map Prod.fst

def isEmpty (d : Dict α) : Bool := d.entries.isEmpty

def get? (d : Dict α) (key : String) : Option α := d.entries.lookup key

theorem ext {d e : Dict α} (h : d.entries = e.entries) : d = e := by
  cases d; cases e; simp_all

/-- Replaces the value of a key in place, or appends the key. -/
def writeEntry (key : String) (value : α) : List (String × α) → List (String × α)
  | [] => [(key, value)]
  | (k, v) :: rest =>
      if k = key then (key, value) :: rest else (k, v) :: writeEntry key value rest

theorem writeEntry_keys (key : String) (value : α) (entries : List (String × α)) :
    (writeEntry key value entries).map Prod.fst =
      if key ∈ entries.map Prod.fst then entries.map Prod.fst
      else entries.map Prod.fst ++ [key] := by
  induction entries with
  | nil => simp [writeEntry]
  | cons e rest ih =>
    obtain ⟨k, v⟩ := e
    by_cases hk : k = key
    · simp [writeEntry, hk]
    · have hk' : ¬ key = k := fun h => hk h.symm
      by_cases hm : key ∈ rest.map Prod.fst
      · have := ih
        simp_all [writeEntry]
      · have := ih
        simp_all [writeEntry]

theorem writeEntry_nodup {key : String} {value : α} {entries : List (String × α)}
    (h : (entries.map Prod.fst).Nodup) : ((writeEntry key value entries).map Prod.fst).Nodup := by
  rw [writeEntry_keys]
  split
  · exact h
  · rename_i hm
    rw [List.nodup_append]
    exact ⟨h, by simp, fun a ha b hb hab => hm (by simp_all)⟩

def insert (d : Dict α) (key : String) (value : α) : Dict α :=
  ⟨writeEntry key value d.entries, writeEntry_nodup d.nodup⟩

/-- The dictionary that results from writing pairs in order: of equal keys the first gives the
place and the last the value. -/
def ofList (pairs : List (String × α)) : Dict α :=
  pairs.foldl (fun d p => d.insert p.1 p.2) empty

def map (f : α → β) (d : Dict α) : Dict β :=
  ⟨d.entries.map fun e => (e.1, f e.2), by
    have h : (d.entries.map fun e => (e.1, f e.2)).map Prod.fst = d.entries.map Prod.fst := by
      simp [List.map_map, Function.comp_def]
    rw [h]
    exact d.nodup⟩

/-- Keeps the entries that hold a value, in their order. -/
def present (d : Dict (Option α)) : Dict α :=
  ⟨d.entries.filterMap fun e => e.2.map (e.1, ·), by
    have h : ((d.entries.filterMap fun e => e.2.map (e.1, ·)).map Prod.fst).Sublist
        (d.entries.map Prod.fst) := by
      induction d.entries with
      | nil => simp
      | cons e rest ih =>
        obtain ⟨k, v⟩ := e
        cases v with
        | none => exact ih.cons k
        | some v => exact ih.cons_cons k
    exact h.nodup d.nodup⟩

theorem lookup_writeEntry (key : String) (value : α) (entries : List (String × α)) (k : String) :
    (writeEntry key value entries).lookup k = if k = key then some value else entries.lookup k := by
  induction entries with
  | nil =>
    by_cases hk : k = key
    · simp [writeEntry, hk]
    · simp [writeEntry, List.lookup_cons, hk, beq_false_of_ne hk]
  | cons e rest ih =>
    obtain ⟨k', v⟩ := e
    by_cases hk' : k' = key
    · subst hk'
      by_cases hk : k = k'
      · simp [writeEntry, hk]
      · simp [writeEntry, List.lookup_cons, hk, beq_false_of_ne hk]
    · by_cases hk : k = k'
      · subst hk
        simp [writeEntry, hk']
      · simp [writeEntry, List.lookup_cons, hk', beq_false_of_ne hk, ih]

/-- Writing what is there changes nothing. -/
theorem writeEntry_of_lookup {key : String} {value : α} {entries : List (String × α)}
    (h : entries.lookup key = some value) : writeEntry key value entries = entries := by
  induction entries with
  | nil => cases h
  | cons e rest ih =>
    obtain ⟨k, v⟩ := e
    by_cases hk : k = key
    · subst hk
      rw [List.lookup_cons_self, Option.some.injEq] at h
      rw [writeEntry, if_pos rfl, h]
    · have hk' : (key == k) = false := by simpa using fun heq => hk heq.symm
      rw [List.lookup_cons, hk'] at h
      rw [writeEntry, if_neg hk, ih h]

theorem get?_insert (d : Dict α) (key : String) (value : α) (k : String) :
    (d.insert key value).get? k = if k = key then some value else d.get? k :=
  lookup_writeEntry key value d.entries k

theorem insert_of_get? {d : Dict α} {key : String} {value : α} (h : d.get? key = some value) :
    d.insert key value = d :=
  ext (writeEntry_of_lookup h)

theorem lookup_map (f : α → β) (entries : List (String × α)) (key : String) :
    (entries.map fun e => (e.1, f e.2)).lookup key = (entries.lookup key).map f := by
  induction entries with
  | nil => rfl
  | cons e rest ih =>
    rw [List.map_cons, List.lookup_cons, List.lookup_cons, ih]
    cases key == e.1 <;> rfl

theorem get?_map (f : α → β) (d : Dict α) (key : String) :
    (d.map f).get? key = (d.get? key).map f :=
  lookup_map f d.entries key

theorem lookup_eq_some_iff_mem {entries : List (String × α)} {key : String} {v : α}
    (hnodup : (entries.map Prod.fst).Nodup) :
    entries.lookup key = some v ↔ (key, v) ∈ entries := by
  rw [List.lookup_eq_some_iff]
  constructor
  · rintro ⟨before, after, rfl, -⟩
    exact List.mem_append_right _ List.mem_cons_self
  · intro hmem
    obtain ⟨before, after, rfl⟩ := List.append_of_mem hmem
    refine ⟨before, after, rfl, fun p hp => bne_iff_ne.mpr fun heq => ?_⟩
    rw [List.map_append, List.nodup_append] at hnodup
    exact hnodup.2.2 p.1 (List.mem_map_of_mem hp) key (List.mem_cons_self) heq.symm

theorem get?_eq_some_iff {d : Dict α} {key : String} {value : α} :
    d.get? key = some value ↔ (key, value) ∈ d.entries :=
  lookup_eq_some_iff_mem d.nodup

theorem get?_present_eq_some_iff {d : Dict (Option α)} {key : String} {value : α} :
    d.present.get? key = some value ↔ d.get? key = some (some value) := by
  rw [get?_eq_some_iff, get?_eq_some_iff, present, List.mem_filterMap]
  constructor
  · rintro ⟨⟨k, v⟩, hmem, hv⟩
    obtain ⟨v, rfl, hpair⟩ := Option.map_eq_some_iff.mp hv
    cases hpair
    exact hmem
  · intro hmem
    exact ⟨_, hmem, rfl⟩

theorem exists_get?_iff {d : Dict α} {key : String} :
    (∃ value, d.get? key = some value) ↔ key ∈ d.keys := by
  simp only [get?_eq_some_iff, keys, List.mem_map, Prod.exists, exists_and_right, exists_eq_right]

theorem keys_insert (d : Dict α) (key : String) (value : α) :
    (d.insert key value).keys = if key ∈ d.keys then d.keys else d.keys ++ [key] :=
  writeEntry_keys key value d.entries

theorem keys_map (f : α → β) (d : Dict α) : (d.map f).keys = d.keys := by
  simp [keys, map, Function.comp_def]

@[simp] theorem entries_empty : (empty : Dict α).entries = [] := rfl

@[simp] theorem entries_insert (d : Dict α) (key : String) (value : α) :
    (d.insert key value).entries = writeEntry key value d.entries := rfl

@[simp] theorem entries_map (f : α → β) (d : Dict α) :
    (d.map f).entries = d.entries.map fun e => (e.1, f e.2) := rfl

@[simp] theorem entries_present (d : Dict (Option α)) :
    d.present.entries = d.entries.filterMap fun e => e.2.map (e.1, ·) := rfl

end Dict
end BatchFlow

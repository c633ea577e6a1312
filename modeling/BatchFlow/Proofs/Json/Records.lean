import BatchFlow.Json.Record
import BatchFlow.Proofs.Json.Values
import Mathlib.Data.List.Basic

/-!
# Records

What a record writes and what is read of it. A record is written member by member, and each way to
write a member has its laws here: which value stands under a key, and that the value is plain. Plain
values are made of texts and flags alone, no key is repeated in them, and they are nested as deep as
the record's type says, whatever is in the record.
-/

namespace BatchFlow

/-! ### Dictionaries -/

namespace Dict

variable {α : Type}

theorem writeEntry_of_notMem {key : String} {value : α} {entries : List (String × α)}
    (h : key ∉ entries.map Prod.fst) :
    writeEntry key value entries = entries ++ [(key, value)] := by
  induction entries with
  | nil => rfl
  | cons e rest ih =>
    rw [List.map_cons, List.mem_cons, not_or] at h
    rw [writeEntry, if_neg fun heq => h.1 heq.symm, ih h.2, List.cons_append]

theorem entries_foldl_insert {pairs : List (String × α)} {d : Dict α}
    (h : ((d.entries ++ pairs).map Prod.fst).Nodup) :
    (pairs.foldl (fun d p => d.insert p.1 p.2) d).entries = d.entries ++ pairs := by
  induction pairs generalizing d with
  | nil => exact (List.append_nil _).symm
  | cons p rest ih =>
    have hnew : p.1 ∉ d.entries.map Prod.fst := by
      rw [List.map_append, List.nodup_append] at h
      exact fun hmem => h.2.2 _ hmem _ List.mem_cons_self rfl
    have hinsert : (d.insert p.1 p.2).entries = d.entries ++ [p] := writeEntry_of_notMem hnew
    rw [List.foldl_cons, ih (by rwa [hinsert, ← List.append_cons]), hinsert, ← List.append_cons]

/-- Writing the entries of a dictionary gives the dictionary again. -/
theorem ofList_entries (d : Dict α) : ofList d.entries = d :=
  ext (entries_foldl_insert (d := empty) d.nodup)

end Dict

/-! ### Members that are read -/

namespace Json

variable {α β : Type} {read : Json → Option β} {write : α → Json} {f : α → β} {default : β}
  {key other : String} {v : Json} {members : Fields}

theorem asList?_arr (h : ∀ a, read (write a) = some (f a)) (items : List α) :
    asList? read (arr (items.map write)) = some (items.map f) := by
  rw [asList?, List.mapM_map]
  induction items with
  | nil => rfl
  | cons a rest ih => simp [h, ih]

theorem asOption?_ofOption (h : ∀ a, read (write a) = some (f a)) (hnull : ∀ a, write a ≠ null)
    (o : Option α) : asOption? read (ofOption write o) = some (o.map f) := by
  cases o with
  | none => rfl
  | some a =>
    have hsome : asOption? read (write a) = (read (write a)).map some := by
      unfold asOption?
      split
      · rename_i heq
        exact absurd heq (hnull a)
      · rfl
    exact hsome.trans (congrArg _ (h a))

@[simp] theorem asFlag?_bool (b : Bool) : asFlag? (bool b) = some b := rfl

@[simp] theorem asText?_str (text : String) : asText? (str text) = some text := rfl

@[simp] theorem asList?_ofTexts (texts : List String) :
    asList? asText? (ofTexts texts) = some texts := by
  have h := asList?_arr (f := id) (fun _ => rfl : ∀ text, asText? (str text) = some (id text)) texts
  rwa [List.map_id] at h

@[simp] theorem asOption?_ofText (o : Option String) :
    asOption? asText? (ofOption str o) = some o := by
  cases o <;> rfl

@[simp] theorem asDict?_ofDict (d : Dict String) : asDict? (ofDict d) = some d := by
  have h : (d.entries.map fun e => (e.1, str e.2)).mapM
      (fun m => (asText? m.2).map (m.1, ·)) = some d.entries := by
    rw [List.mapM_map]
    induction d.entries with
    | nil => rfl
    | cons e rest ih => simp [ih]
  rw [ofDict, asDict?, h, Option.map_some, Dict.ofList_entries]

/-- An object with keys of a record only, none of them twice, gives all its members to it. -/
theorem fields?_of_mem {keys : List String} (hmem : ∀ m ∈ members, m.1 ∈ keys)
    (hnodup : (members.map Prod.fst).Nodup) (closed : Bool) :
    fields? keys closed (obj members) = some members := by
  have hcontains : ∀ m ∈ members, keys.contains m.1 = true :=
    fun m hm => List.contains_iff_mem.mpr (hmem m hm)
  have hknown : members.filter (fun m => keys.contains m.1) = members :=
    List.filter_eq_self.mpr hcontains
  have hany : members.any (fun m => !keys.contains m.1) = false := by
    rw [List.any_eq_false]
    intro m hm
    rw [hcontains m hm]
    exact Bool.false_ne_true
  rw [fields?, hknown, hany, Bool.and_false, if_neg Bool.false_ne_true, if_pos hnodup]

/-- An object with exactly the keys of a record gives all its members to the record. -/
theorem fields?_obj (keys : List String) (hnodup : keys.Nodup)
    (hkeys : members.map Prod.fst = keys) (closed : Bool) :
    fields? keys closed (obj members) = some members :=
  fields?_of_mem (fun _ hm => hkeys ▸ List.mem_map_of_mem hm) (hkeys ▸ hnodup) closed

@[simp] theorem defaulted_self : defaulted key read default ((key, v) :: members) = read v := by
  simp [defaulted]

@[simp] theorem defaulted_of_ne (h : key ≠ other) :
    defaulted key read default ((other, v) :: members) = defaulted key read default members := by
  have hne : (key == other) = false := by simpa using h
  simp [defaulted, List.lookup_cons, hne]

/-! ### Members under a key -/

section

variable {fields : Fields} {o : Option α} {items : List α} {write' : List α → Json} {d : Dict String}
  {b : Bool}

theorem lookup_cons_of_ne (h : key ≠ other) :
    List.lookup key ((other, v) :: fields) = fields.lookup key := by
  rw [List.lookup_cons, beq_false_of_ne h]

@[simp] theorem lookup_optional_of_ne (h : key ≠ other) :
    (optional other write o).lookup key = none := by
  cases o with
  | none => rfl
  | some a => exact lookup_cons_of_ne h

@[simp] theorem lookup_listed_of_ne (h : key ≠ other) :
    (listed other write' items).lookup key = none := by
  cases items with
  | nil => rfl
  | cons a rest => exact lookup_cons_of_ne h

@[simp] theorem lookup_keyed_of_ne (h : key ≠ other) : (keyed other d).lookup key = none := by
  unfold keyed
  split
  · rfl
  · exact lookup_cons_of_ne h

@[simp] theorem lookup_flagged_of_ne (h : key ≠ other) : (flagged other b).lookup key = none := by
  cases b with
  | false => rfl
  | true => exact lookup_cons_of_ne h

end

theorem optional_inj (key : String) (hwrite : Function.Injective write) {o o' : Option α}
    (h : (optional key write o).lookup key = (optional key write o').lookup key) : o = o' := by
  cases o <;> cases o' <;> simp_all [optional, hwrite.eq_iff]

theorem listed_inj (key : String) {write : List α → Json} (hwrite : Function.Injective write)
    {items items' : List α}
    (h : (listed key write items).lookup key = (listed key write items').lookup key) :
    items = items' := by
  cases items <;> cases items' <;> simp_all [listed, hwrite.eq_iff]

theorem arr_map_injective (hwrite : Function.Injective write) :
    Function.Injective fun items : List α => arr (items.map write) := by
  intro items items' h
  exact List.map_injective_iff.mpr hwrite (Json.arr.inj h)

/-! ### Plain values -/

/-- A value of texts and flags, with arrays and objects nested at most so deep. The keys of an
object are distinct. -/
inductive Plain : Nat → Json → Prop
  | str (n : Nat) (text : String) : Plain n (str text)
  | bool (n : Nat) (b : Bool) : Plain n (bool b)
  | arr {n : Nat} {items : List Json} (h : ∀ j ∈ items, Plain n j) : Plain (n + 1) (arr items)
  | obj {n : Nat} {members : List (String × Json)} (hkeys : (members.map Prod.fst).Nodup)
      (h : ∀ m ∈ members, Plain n m.2) : Plain (n + 1) (obj members)

/-- The test passes for texts, flags and containers, so far as no key is repeated. -/
structure Lenient (test : Json → Bool) : Prop where
  str : ∀ text, test (str text) = true
  bool : ∀ b, test (bool b) = true
  arr : ∀ items, test (arr items) = true
  obj : ∀ members, (members.map Prod.fst).Nodup → test (obj members) = true

theorem lenient_isIntegral : Lenient isIntegral :=
  ⟨fun _ => rfl, fun _ => rfl, fun _ => rfl, fun _ _ => rfl⟩

theorem lenient_hasDistinctKeys : Lenient hasDistinctKeys :=
  ⟨fun _ => rfl, fun _ => rfl, fun _ => rfl, fun _ h => decide_eq_true h⟩

namespace Plain

variable {n : Nat} {j : Json}

theorem depth_le (h : Plain n j) : depth j ≤ n := by
  induction h with
  | str | bool => exact Nat.zero_le _
  | arr _ ih => exact depth_arr_le_iff.mpr ih
  | obj _ _ ih => exact depth_obj_le_iff.mpr ih

theorem every {test : Json → Bool} (htest : Lenient test) (h : Plain n j) :
    every test j = true := by
  induction h with
  | str _ text => exact htest.str text
  | bool _ b => exact htest.bool b
  | arr _ ih => exact every_arr.mpr ⟨htest.arr _, ih⟩
  | obj hkeys _ ih => exact every_obj.mpr ⟨htest.obj _ hkeys, ih⟩

theorem ofTexts (n : Nat) (texts : List String) : Plain (n + 1) (ofTexts texts) :=
  .arr (List.forall_mem_map.mpr fun text _ => .str n text)

theorem ofDict (n : Nat) (d : Dict String) : Plain (n + 1) (ofDict d) := by
  refine .obj ?_ (List.forall_mem_map.mpr fun e _ => .str n e.2)
  rw [List.map_map]
  exact d.nodup

end Plain

/-! ### Members that are written -/

/-- The members that a record with these keys may write: in the order of the keys, and each with a
value of which the predicate holds. -/
structure Members (keys : List String) (p : Json → Prop) (fields : Fields) : Prop where
  sublist : (fields.map Prod.fst).Sublist keys
  holds : ∀ m ∈ fields, p m.2

section

variable {keys keys' : List String} {p : Json → Prop} {n : Nat} {fields fields' : Fields}

theorem Members.append (h : Members keys p fields) (h' : Members keys' p fields') :
    Members (keys ++ keys') p (fields ++ fields') where
  sublist := by
    rw [List.map_append]
    exact h.sublist.append h'.sublist
  holds := List.forall_mem_append.mpr ⟨h.holds, h'.holds⟩

theorem Members.nodup (h : Members keys p fields) (hkeys : keys.Nodup) :
    (fields.map Prod.fst).Nodup :=
  h.sublist.nodup hkeys

theorem Members.plain_obj (h : Members keys (Plain n) fields) (hkeys : keys.Nodup) :
    Plain (n + 1) (obj fields) :=
  .obj (h.nodup hkeys) h.holds

theorem Members.every_obj {test : Json → Bool} (htest : Lenient test)
    (h : Members keys (fun j => every test j = true) fields) (hkeys : keys.Nodup) :
    every test (obj fields) = true :=
  Json.every_obj.mpr ⟨htest.obj _ (h.nodup hkeys), h.holds⟩

theorem members_nil (key : String) : Members [key] p [] :=
  ⟨List.nil_sublist _, fun _ hm => absurd hm List.not_mem_nil⟩

theorem members_single (key : String) {j : Json} (h : p j) : Members [key] p [(key, j)] :=
  ⟨List.Sublist.refl _, List.forall_mem_singleton.mpr h⟩

theorem members_optional (key : String) (h : ∀ a, p (write a)) (o : Option α) :
    Members [key] p (optional key write o) := by
  cases o with
  | none => exact members_nil key
  | some a => exact members_single key (h a)

theorem members_text (key : String) (n : Nat) (o : Option String) :
    Members [key] (Plain n) (optional key str o) :=
  members_optional key (.str n) o

theorem members_listed (key : String) (write : List α → Json) {items : List α}
    (h : p (write items)) : Members [key] p (listed key write items) := by
  cases items with
  | nil => exact members_nil key
  | cons a rest => exact members_single key h

theorem members_texts (key : String) (n : Nat) (texts : List String) :
    Members [key] (Plain (n + 1)) (listed key ofTexts texts) :=
  members_listed key ofTexts (.ofTexts n texts)

theorem members_keyed (key : String) (n : Nat) (d : Dict String) :
    Members [key] (Plain (n + 1)) (keyed key d) := by
  unfold keyed
  split
  · exact members_nil key
  · exact members_single key (.ofDict n d)

theorem members_flagged (key : String) (n : Nat) (b : Bool) :
    Members [key] (Plain n) (flagged key b) := by
  cases b with
  | false => exact members_nil key
  | true => exact members_single key (.bool n true)

end

end Json
end BatchFlow

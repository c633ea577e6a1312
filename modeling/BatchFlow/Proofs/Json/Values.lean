import BatchFlow.Json.Printer

/-!
# What a value is made of

A value is a tree, so what is asked of it is often asked of everything in it as well: that numbers
are integers, that no key is repeated. `every` asks a test of a value and of all that it holds.
Here too is how deep a value nests, which is what the reader bounds.
-/

namespace BatchFlow
namespace Json

mutual

/-- Whether a value passes a test, and all values in it. -/
def every (test : Json → Bool) : Json → Bool
  | arr items => test (arr items) && everyItem test items
  | obj members => test (obj members) && everyMember test members
  | j => test j

def everyItem (test : Json → Bool) : List Json → Bool
  | [] => true
  | j :: rest => every test j && everyItem test rest

def everyMember (test : Json → Bool) : List (String × Json) → Bool
  | [] => true
  | (_, j) :: rest => every test j && everyMember test rest

end

/-- A number is an integer that 64 bits hold, with a sign or without. -/
def isIntegral : Json → Bool
  | int n => -9223372036854775808 ≤ n && n < 18446744073709551616
  | decimal _ => false
  | _ => true

/-- No two members of an object have the same key. -/
def hasDistinctKeys : Json → Bool
  | obj members => decide (members.map Prod.fst).Nodup
  | _ => true

mutual

/-- How deep arrays and objects are nested. -/
def depth : Json → Nat
  | arr items => depthItems items + 1
  | obj members => depthMembers members + 1
  | _ => 0

def depthItems : List Json → Nat
  | [] => 0
  | j :: rest => max (depth j) (depthItems rest)

def depthMembers : List (String × Json) → Nat
  | [] => 0
  | (_, j) :: rest => max (depth j) (depthMembers rest)

end

section

variable {test : Json → Bool} {items : List Json} {members : List (String × Json)} {n : Nat}

theorem everyItem_iff : everyItem test items = true ↔ ∀ j ∈ items, every test j = true := by
  induction items with
  | nil => simp [everyItem]
  | cons j rest ih => simp [everyItem, ih]

theorem everyMember_iff :
    everyMember test members = true ↔ ∀ m ∈ members, every test m.2 = true := by
  induction members with
  | nil => simp [everyMember]
  | cons m rest ih => simp [everyMember, ih]

@[simp] theorem every_str (text : String) : every test (str text) = test (str text) := rfl

@[simp] theorem every_arr : every test (arr items) = true ↔
    test (arr items) = true ∧ ∀ j ∈ items, every test j = true := by
  rw [every, Bool.and_eq_true, everyItem_iff]

@[simp] theorem every_obj : every test (obj members) = true ↔
    test (obj members) = true ∧ ∀ m ∈ members, every test m.2 = true := by
  rw [every, Bool.and_eq_true, everyMember_iff]

theorem depthItems_le_iff : depthItems items ≤ n ↔ ∀ j ∈ items, depth j ≤ n := by
  induction items with
  | nil => simp [depthItems]
  | cons j rest ih => rw [depthItems, Nat.max_le, ih, List.forall_mem_cons]

theorem depthMembers_le_iff : depthMembers members ≤ n ↔ ∀ m ∈ members, depth m.2 ≤ n := by
  induction members with
  | nil => simp [depthMembers]
  | cons m rest ih => rw [depthMembers, Nat.max_le, ih, List.forall_mem_cons]

theorem depth_arr_le_iff : depth (arr items) ≤ n + 1 ↔ ∀ j ∈ items, depth j ≤ n := by
  rw [depth, Nat.add_le_add_iff_right, depthItems_le_iff]

theorem depth_obj_le_iff : depth (obj members) ≤ n + 1 ↔ ∀ m ∈ members, depth m.2 ≤ n := by
  rw [depth, Nat.add_le_add_iff_right, depthMembers_le_iff]

end

/-! ### How long a text is -/

theorem writeItems_eq (layout : Layout) (depth : Nat) (items : List Json) :
    writeItems layout depth items = items.map (write layout depth) := by
  induction items with
  | nil => rfl
  | cons j rest ih => rw [writeItems, ih, List.map_cons]

theorem writeMembers_eq (layout : Layout) (depth : Nat) (members : List (String × Json)) :
    writeMembers layout depth members =
      members.map fun m => quote m.1 ++ layout.colon ++ write layout depth m.2 := by
  induction members with
  | nil => rfl
  | cons m rest ih => rw [writeMembers, ih, List.map_cons]

/-- A container is longer than each of its entries, and is never empty. -/
theorem length_entry_lt_enclose (layout : Layout) (depth : Nat) (opening closing : Char)
    (entries : List (List Char)) :
    0 < (enclose layout depth opening closing entries).length ∧
      ∀ entry ∈ entries, entry.length < (enclose layout depth opening closing entries).length := by
  cases entries with
  | nil => simp [enclose]
  | cons first rest =>
    refine ⟨Nat.succ_pos _, fun entry hentry => ?_⟩
    simp only [enclose, List.length_cons, List.length_append]
    rcases List.mem_cons.mp hentry with rfl | hentry
    · omega
    · obtain ⟨before, after, rfl⟩ := List.append_of_mem hentry
      simp only [List.flatMap_append, List.flatMap_cons, List.length_append, List.length_cons]
      omega

mutual

/-- A text is at least as long as its value is deep. -/
theorem depth_le_length (layout : Layout) :
    ∀ (d : Nat) (j : Json), depth j ≤ (write layout d j).length
  | _, null | _, bool _ | _, int _ | _, decimal _ | _, str _ => Nat.zero_le _
  | d, arr items => by
    have hlength := length_entry_lt_enclose layout d '[' ']' (writeItems layout (d + 1) items)
    have hitems := depthItems_le layout (d + 1) items
      fun entry hentry => Nat.le_pred_of_lt (hlength.2 entry hentry)
    exact Nat.add_le_of_le_sub hlength.1 hitems
  | d, obj members => by
    have hlength := length_entry_lt_enclose layout d '{' '}' (writeMembers layout (d + 1) members)
    have hmembers := depthMembers_le layout (d + 1) members
      fun entry hentry => Nat.le_pred_of_lt (hlength.2 entry hentry)
    exact Nat.add_le_of_le_sub hlength.1 hmembers

theorem depthItems_le (layout : Layout) {n : Nat} : ∀ (d : Nat) (items : List Json),
    (∀ entry ∈ writeItems layout d items, entry.length ≤ n) → depthItems items ≤ n
  | _, [], _ => Nat.zero_le _
  | d, j :: rest, h => by
    rw [writeItems, List.forall_mem_cons] at h
    exact Nat.max_le.mpr ⟨Nat.le_trans (depth_le_length layout d j) h.1,
      depthItems_le layout d rest h.2⟩

theorem depthMembers_le (layout : Layout) {n : Nat} : ∀ (d : Nat) (members : List (String × Json)),
    (∀ entry ∈ writeMembers layout d members, entry.length ≤ n) → depthMembers members ≤ n
  | _, [], _ => Nat.zero_le _
  | d, (key, j) :: rest, h => by
    rw [writeMembers, List.forall_mem_cons, List.length_append] at h
    have hvalue := depth_le_length layout d j
    exact Nat.max_le.mpr ⟨by omega, depthMembers_le layout d rest h.2⟩

end

end Json
end BatchFlow

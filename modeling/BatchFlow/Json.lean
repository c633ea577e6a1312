/-!
# JSON values

An object keeps its members in the order they were written, a repeated key included: which of two
equal keys counts is decided by whoever reads the object. Equality is decidable, because actions
of custom kinds carry a value of this type and error handlers are compared.
-/

namespace BatchFlow

/-- A JSON value. -/
inductive Json where
  | null
  | bool (value : Bool)
  | int (value : Int)
  /-- A number that is not written as an integer, kept as its text. -/
  | decimal (text : String)
  | str (text : String)
  | arr (items : List Json)
  | obj (members : List (String × Json))
  deriving Inhabited

namespace Json

mutual

/-- Equality of two values, as a test. -/
def same : Json → Json → Bool
  | null, null => true
  | bool a, bool b => a == b
  | int a, int b => a == b
  | decimal a, decimal b => a == b
  | str a, str b => a == b
  | arr a, arr b => sameItems a b
  | obj a, obj b => sameMembers a b
  | _, _ => false

def sameItems : List Json → List Json → Bool
  | [], [] => true
  | x :: xs, y :: ys => same x y && sameItems xs ys
  | _, _ => false

def sameMembers : List (String × Json) → List (String × Json) → Bool
  | [], [] => true
  | (k, x) :: xs, (l, y) :: ys => k == l && same x y && sameMembers xs ys
  | _, _ => false

end

mutual

theorem same_iff : ∀ a b : Json, same a b = true ↔ a = b
  | null, b => by cases b <;> simp [same]
  | bool _, b => by cases b <;> simp [same]
  | int _, b => by cases b <;> simp [same]
  | decimal _, b => by cases b <;> simp [same]
  | str _, b => by cases b <;> simp [same]
  | arr xs, b => by
      cases b with
      | arr ys => simpa [same] using sameItems_iff xs ys
      | _ => simp [same]
  | obj xs, b => by
      cases b with
      | obj ys => simpa [same] using sameMembers_iff xs ys
      | _ => simp [same]

theorem sameItems_iff : ∀ a b : List Json, sameItems a b = true ↔ a = b
  | [], b => by cases b <;> simp [sameItems]
  | x :: xs, b => by
      cases b with
      | nil => simp [sameItems]
      | cons y ys => simp [sameItems, same_iff x y, sameItems_iff xs ys]

theorem sameMembers_iff : ∀ a b : List (String × Json), sameMembers a b = true ↔ a = b
  | [], b => by cases b <;> simp [sameMembers]
  | (k, x) :: xs, b => by
      cases b with
      | nil => simp [sameMembers]
      | cons y ys =>
        obtain ⟨l, y⟩ := y
        simp [sameMembers, same_iff x y, sameMembers_iff xs ys]

end

instance : DecidableEq Json := fun a b => decidable_of_iff _ (same_iff a b)

end Json
end BatchFlow

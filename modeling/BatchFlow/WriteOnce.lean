import BatchFlow.BuildError

/-!
# Write-once fields

A field starts unmodified, empty or with a default that was copied from elsewhere. It may be
modified once: setting it and clearing it both count, and a later attempt is refused.
-/

namespace BatchFlow

/-- A value that may be modified at most once. -/
structure WriteOnce (α : Type) where
  value : Option α := none
  modified : Bool := false
  deriving DecidableEq, Inhabited

namespace WriteOnce

variable {α : Type}

/-- An unmodified field that may hold a default. -/
def ofOption (value : Option α) : WriteOnce α := ⟨value, false⟩

def ofDefault (value : α) : WriteOnce α := ofOption (some value)

/-- The one modification. The field's name goes into the error. -/
def modify (field : String) (value : Option α) (w : WriteOnce α) :
    Except BuildError (WriteOnce α) :=
  if w.modified then .error (.alreadySet field) else .ok ⟨value, true⟩

def set (field : String) (value : α) (w : WriteOnce α) : Except BuildError (WriteOnce α) :=
  w.modify field (some value)

def clear (field : String) (w : WriteOnce α) : Except BuildError (WriteOnce α) :=
  w.modify field none

@[simp] theorem value_ofOption (v : Option α) : (ofOption v).value = v := rfl

@[simp] theorem modified_ofOption (v : Option α) : (ofOption v).modified = false := rfl

theorem modify_eq_ok_iff {field : String} {v : Option α} {w w' : WriteOnce α} :
    w.modify field v = .ok w' ↔ w.modified = false ∧ w' = ⟨v, true⟩ := by
  unfold modify
  cases w.modified
  · simp [@eq_comm _ w']
  · simp

theorem modify_eq_error_iff {field : String} {v : Option α} {w : WriteOnce α} {e : BuildError} :
    w.modify field v = .error e ↔ w.modified = true ∧ e = .alreadySet field := by
  unfold modify
  cases w.modified
  · simp
  · simp [@eq_comm _ e]

end WriteOnce
end BatchFlow

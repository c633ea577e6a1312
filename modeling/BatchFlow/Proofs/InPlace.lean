import BatchFlow.Proofs.Outcome

/-!
# Changes in place

A value may be changed where it is, by one small change after the other. When such a computation
fails, what it has done so far remains. An attempt is a computation that does all or nothing; that
a computation is an attempt is what "a failing call changes nothing" comes down to.
-/

namespace BatchFlow

variable {α ε σ τ : Type}

/-- The state that a computation leaves behind, whether it fails or not. -/
def leave (x : EStateM ε σ α) (s : σ) : σ :=
  match x s with
  | .ok _ s' => s'
  | .error _ s' => s'

/-- Goes over to the value of a function, or fails with its error and stays. -/
def attempt (f : σ → Except ε σ) : EStateM ε σ Unit := fun s =>
  match f s with
  | .ok s' => .ok () s'
  | .error e => .error e s

/-- A computation that works on a part of the state. -/
def within (get : σ → τ) (put : σ → τ → σ) (x : EStateM ε τ α) : EStateM ε σ α := fun s =>
  match x (get s) with
  | .ok a t => .ok a (put s t)
  | .error e t => .error e (put s t)

section attempt

variable {f : σ → Except ε σ} {s s' : σ} {e : ε}

theorem attempt_of_ok (h : f s = .ok s') : attempt f s = .ok () s' := by
  rw [attempt, h]

theorem leave_attempt (f : σ → Except ε σ) (s : σ) : leave (attempt f) s =
    match f s with
    | .ok s' => s'
    | .error _ => s := by
  unfold leave attempt
  cases f s <;> rfl

theorem attempt_eq_error_iff : attempt f s = .error e s' ↔ f s = .error e ∧ s' = s := by
  unfold attempt
  cases f s <;> simp [@eq_comm _ s']

end attempt

/-! Computations that are put together from attempts in which nothing fails after a change. -/

section sequence

variable {β : Type}

theorem get_bind_attempt (f : σ → σ → Except ε σ) :
    ((get : EStateM ε σ σ) >>= fun s => attempt (f s)) = attempt fun s => f s s := rfl

theorem answer_bind_attempt (x : Except ε β) (f : σ → Except ε σ) :
    ((answer x : EStateM ε σ β) >>= fun _ => attempt f) = attempt fun s => x >>= fun _ => f s := by
  cases x <;> rfl

theorem attempt_bind_modify (f : σ → Except ε σ) (g : σ → σ) :
    (attempt f >>= fun _ => modify g) = attempt fun s => g <$> f s := by
  funext s
  show EStateM.bind (attempt f) (fun _ => modify g) s = attempt (fun s => g <$> f s) s
  simp only [EStateM.bind, attempt]
  cases f s <;> rfl

end sequence

theorem modify_eq_attempt (g : σ → σ) :
    (modify g : EStateM ε σ Unit) = attempt fun s => .ok (g s) := rfl

theorem throw_eq_attempt (e : ε) :
    (throw e : EStateM ε σ Unit) = attempt fun _ => .error e := rfl

/-- An attempt at a part of the state is one at the whole, if a part that it fails on can be put
back without a change. -/
theorem within_attempt {get : σ → τ} {put : σ → τ → σ} {f : τ → Except ε τ}
    (hput : ∀ s e, f (get s) = .error e → put s (get s) = s) :
    within get put (attempt f) = attempt fun s => return put s (← f (get s)) := by
  funext s
  simp only [within, attempt]
  cases hf : f (get s) with
  | ok t => rfl
  | error e => exact congrArg (EStateM.Result.error e) (hput s e hf)

end BatchFlow

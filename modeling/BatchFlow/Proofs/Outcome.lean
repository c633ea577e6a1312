import Mathlib.Data.List.Forall2

/-!
# How a computation ends

A computation that may fail ends well or badly: `Ends` asks one thing of its value and another of
its error, so that a statement about both goes through a sequence of steps by one rule.
-/

namespace BatchFlow

variable {α β ε : Type}

theorem bind_eq_ok_iff {x : Except ε α} {f : α → Except ε β} {b : β} :
    (x >>= f) = .ok b ↔ ∃ a, x = .ok a ∧ f a = .ok b := by
  cases x <;> simp [bind, Except.bind]

theorem bind_eq_error_iff {x : Except ε α} {f : α → Except ε β} {e : ε} :
    (x >>= f) = .error e ↔ x = .error e ∨ ∃ a, x = .ok a ∧ f a = .error e := by
  cases x <;> simp [bind, Except.bind]

theorem ok_bind (a : α) (f : α → Except ε β) : (Except.ok a >>= f) = f a := rfl

theorem mapError_eq_ok_iff {ε' : Type} {x : Except ε α} {f : ε → ε'} {a : α} :
    x.mapError f = .ok a ↔ x = .ok a := by
  cases x <;> simp [Except.mapError]

/-- A list is mapped if each of its items is. -/
theorem mapM_eq_ok_iff {f : α → Except ε β} {items : List α} {values : List β} :
    items.mapM f = .ok values ↔ List.Forall₂ (fun a b => f a = .ok b) items values := by
  induction items generalizing values with
  | nil =>
    rw [List.mapM_nil, List.forall₂_nil_left_iff]
    exact ⟨fun h => (Except.ok.inj h).symm, fun h => congrArg Except.ok h.symm⟩
  | cons a rest ih =>
    rw [List.mapM_cons, bind_eq_ok_iff, List.forall₂_cons_left_iff]
    constructor
    · rintro ⟨b, hb, hrest⟩
      obtain ⟨bs, hbs, hvalues⟩ := bind_eq_ok_iff.mp hrest
      exact ⟨b, bs, hb, ih.mp hbs, (Except.ok.inj hvalues).symm⟩
    · rintro ⟨b, bs, hb, hbs, rfl⟩
      exact ⟨b, hb, bind_eq_ok_iff.mpr ⟨bs, ih.mpr hbs, rfl⟩⟩

/-- The value is good, or the error is one that may come about. -/
def Ends (good : α → Prop) (bad : ε → Prop) : Except ε α → Prop
  | .ok a => good a
  | .error e => bad e

namespace Ends

variable {good good' : α → Prop} {bad bad' : ε → Prop} {x : Except ε α}

theorem mono (h : Ends good bad x) (hg : ∀ a, good a → good' a) (hb : ∀ e, bad e → bad' e) :
    Ends good' bad' x := by
  cases x with
  | ok a => exact hg a h
  | error e => exact hb e h

theorem bind {f : α → Except ε β} {goal : β → Prop} (h : Ends good bad x)
    (hf : ∀ a, good a → Ends goal bad (f a)) : Ends goal bad (x >>= f) := by
  cases x with
  | ok a => exact hf a h
  | error e => exact h

theorem mapError {ε' : Type} {f : ε → ε'} {bad' : ε' → Prop} (h : Ends good bad x)
    (hb : ∀ e, bad e → bad' (f e)) : Ends good bad' (x.mapError f) := by
  cases x with
  | ok a => exact h
  | error e => exact hb e h

theorem good_of_eq {a : α} (h : Ends good bad x) (hx : x = .ok a) : good a := by
  subst hx
  exact h

theorem bad_of_eq {e : ε} (h : Ends good bad x) (hx : x = .error e) : bad e := by
  subst hx
  exact h

end Ends

/-! ### Computations that change a state

A computation that fails keeps the state that it had come to. -/

section

variable {σ : Type} {x : EStateM ε σ α} {s s' : σ} {a : α} {e : ε}

theorem bind_of_ok (h : x s = .ok a s') (f : α → EStateM ε σ β) : (x >>= f) s = f a s' := by
  show EStateM.bind x f s = f a s'
  rw [EStateM.bind, h]

theorem bind_of_error (h : x s = .error e s') (f : α → EStateM ε σ β) :
    (x >>= f) s = .error e s' := by
  show EStateM.bind x f s = .error e s'
  rw [EStateM.bind, h]

/-- An answer that leaves the state alone. -/
def answer (x : Except ε α) : EStateM ε σ α := fun s =>
  match x with
  | .ok a => .ok a s
  | .error e => .error e s

end

/-! ### Lists side by side -/

section

variable {α β : Type} {R : α → β → Prop} {items : List α} {values : List β}

theorem exists_forall₂ (h : ∀ a ∈ items, ∃ b, R a b) : ∃ values, List.Forall₂ R items values := by
  induction items with
  | nil => exact ⟨[], .nil⟩
  | cons a rest ih =>
    obtain ⟨b, hb⟩ := h a List.mem_cons_self
    obtain ⟨values, hvalues⟩ := ih fun c hc => h c (List.mem_cons_of_mem a hc)
    exact ⟨b :: values, .cons hb hvalues⟩

theorem exists_of_mem_left (h : List.Forall₂ R items values) {a : α} (ha : a ∈ items) :
    ∃ b ∈ values, R a b := by
  induction h with
  | nil => cases ha
  | cons hab _ ih =>
    cases ha with
    | head => exact ⟨_, List.mem_cons_self, hab⟩
    | tail _ ha =>
      obtain ⟨b, hb, hrel⟩ := ih ha
      exact ⟨b, List.mem_cons_of_mem _ hb, hrel⟩

theorem exists_of_mem_right (h : List.Forall₂ R items values) {b : β} (hb : b ∈ values) :
    ∃ a ∈ items, R a b :=
  exists_of_mem_left h.flip hb

end

end BatchFlow

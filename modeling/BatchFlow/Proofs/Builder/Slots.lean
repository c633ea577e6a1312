import BatchFlow.WriteOnce
import BatchFlow.Proofs.InPlace

/-!
# Slots

A builder, of a node or of a workflow, has slots: write-once fields that calls fill in. What it has
to see to is local. Every call is on one slot or on none; a call on a slot comes down to the one
modification of that slot; the slots do not overlap. From this follows what any sequence of calls
does, refused calls included: the first call on a slot decides its value, and each later one is
refused.
-/

namespace BatchFlow

/-- The one modification, made where the field is. -/
def modifyOnce {α : Type} (field : String) (value : Option α) :
    EStateM BuildError (WriteOnce α) Unit := do
  if (← get).modified then throw (.alreadySet field)
  modify fun w => { w with value }
  modify fun w => { w with modified := true }

theorem modifyOnce_eq {α : Type} (field : String) (value : Option α) :
    modifyOnce field value = attempt (·.modify field value) := by
  funext w
  obtain ⟨old, modified⟩ := w
  cases modified <;> rfl

/-- What a call does: the one modification of a field, or a change that no field has a part in. -/
inductive Move (σ : Type) {Field : Type} (Value : Field → Type) where
  /-- Sets the field, or clears it if there is no value. -/
  | modify (field : Field) (value : Option (Value field))
  | change (program : EStateM BuildError σ Unit)

/-- The write-once fields of a state that calls change. -/
structure Slots (σ ε : Type) where
  Field : Type
  decEq : DecidableEq Field
  Value : Field → Type
  /-- The field, as an error names it. -/
  text : Field → String
  slot : σ → (f : Field) → WriteOnce (Value f)
  put : σ → (f : Field) → WriteOnce (Value f) → σ
  move : ε → Move σ Value
  apply : σ → ε → Except BuildError σ

namespace Slots

attribute [instance] Slots.decEq

variable {σ ε : Type} (F : Slots σ ε)

/-- What the slots have to see to. -/
structure Lawful : Prop where
  exists_call : ∀ f v, ∃ e, F.move e = .modify f (some v)
  apply_eq : ∀ {e f v}, F.move e = .modify f v → ∀ s,
    F.apply s e = do return F.put s f (← (F.slot s f).modify (F.text f) v)
  change_eq : ∀ {e program}, F.move e = .change program → program = attempt (F.apply · e)
  slot_put_self : ∀ s f w, F.slot (F.put s f w) f = w
  slot_put_of_ne : ∀ {f g}, g ≠ f → ∀ s w, F.slot (F.put s f w) g = F.slot s g
  /-- A field that has been modified is there to be put back. -/
  put_slot : ∀ {s f}, (F.slot s f).modified = true → F.put s f (F.slot s f) = s
  slot_eq : ∀ {e program}, F.move e = .change program → ∀ {s s'}, F.apply s e = .ok s' →
    F.slot s' = F.slot s

/-- A call, made where the state is. -/
def call (e : ε) : EStateM BuildError σ Unit :=
  match F.move e with
  | .modify f v => within (F.slot · f) (F.put · f) (modifyOnce (F.text f) v)
  | .change program => program

/-- A value for each field, or none. -/
abbrev Values : Type := (f : F.Field) → Option (F.Value f)

/-- The state after calls in a row, whether they were refused or not. -/
def after (s : σ) (es : List ε) : σ := es.foldl (fun s e => leave (F.call e) s) s

/-- The call is on the field. -/
def On (e : ε) (f : F.Field) : Prop := ∃ v, F.move e = .modify f v

/-- The value that a call brings for the field, if it is on the field. -/
def valueOn (f : F.Field) (e : ε) : Option (Option (F.Value f)) :=
  match F.move e with
  | .modify g v => if h : g = f then some (h ▸ v) else none
  | .change _ => none

/-- Each field can be modified exactly once, by the first call on it. -/
structure Disciplined (s : σ) : Prop where
  /-- Whichever value a field is to have, there is a call for it. -/
  exists_call : ∀ f v, ∃ e, F.move e = .modify f (some v)
  /-- A call does what it says or leaves the state as it was. -/
  call_eq : ∀ e, F.call e = attempt (F.apply · e)
  /-- A call that fails leaves no trace. -/
  unchanged : ∀ es e x s', F.call e (F.after s es) = .error x s' → s' = F.after s es
  refused_iff : ∀ es e f, F.On e f →
    ((∃ s', F.call e (F.after s es) = .error (.alreadySet (F.text f)) s') ↔ ∃ e' ∈ es, F.On e' f)
  accepted : ∀ es e f, F.On e f → (∀ e' ∈ es, ¬ F.On e' f) →
    ∃ s', F.call e (F.after s es) = .ok () s'
  /-- The first call on a field decides. -/
  value_eq : ∀ es f, (F.slot (F.after s es) f).value =
    (es.findSome? (F.valueOn f)).getD (F.slot s f).value

/-- The values after calls, given those from before: the first call on a field decides, and a field
that no call is on keeps the value that it had. -/
def decided (before : F.Values) (es : List ε) : F.Values := fun f =>
  (es.findSome? (F.valueOn f)).getD (before f)

/-- The fields have these values at first, and calls decide them from there on. -/
structure Settles (s : σ) (before : F.Values) : Prop extends F.Disciplined s where
  slot_eq : ∀ f, F.slot s f = .ofOption (before f)
  after_eq : ∀ es f, (F.slot (F.after s es) f).value = F.decided before es f

variable {F}

theorem valueOn_eq_some_iff {e : ε} {f : F.Field} {v : Option (F.Value f)} :
    F.valueOn f e = some v ↔ F.move e = .modify f v := by
  unfold valueOn
  cases hm : F.move e with
  | change program => simp
  | modify g v' =>
    by_cases hg : g = f
    · subst hg
      simp
    · simp [hg]

theorem valueOn_eq_none_iff {e : ε} {f : F.Field} : F.valueOn f e = none ↔ ¬ F.On e f := by
  simp only [Option.eq_none_iff_forall_ne_some, ne_eq, valueOn_eq_some_iff, On, not_exists]

namespace Lawful

variable (h : F.Lawful) {s s' : σ} {e : ε} {f : F.Field}
include h

/-- A call does what it says or leaves the state as it was. -/
theorem call_eq (e : ε) : F.call e = attempt (F.apply · e) := by
  unfold call
  cases hm : F.move e with
  | change program => exact h.change_eq hm
  | modify f v =>
    -- A modification that is refused still puts back what it has read.
    have hput : ∀ s x, (F.slot s f).modify (F.text f) v = .error x →
        F.put s f (F.slot s f) = s := fun s x hx =>
      h.put_slot (WriteOnce.modify_eq_error_iff.mp hx).1
    simp only
    rw [modifyOnce_eq, within_attempt hput]
    exact congrArg attempt (funext fun s => (h.apply_eq hm s).symm)

/-- A call on a field that has been modified is refused. -/
theorem apply_of_modified {v : Option (F.Value f)} (ht : F.move e = .modify f v)
    (hm : (F.slot s f).modified = true) : F.apply s e = .error (.alreadySet (F.text f)) := by
  rw [h.apply_eq ht, WriteOnce.modify_eq_error_iff.mpr ⟨hm, rfl⟩]
  rfl

/-- A call on any other field modifies it. -/
theorem apply_of_unmodified {v : Option (F.Value f)} (ht : F.move e = .modify f v)
    (hm : (F.slot s f).modified = false) : F.apply s e = .ok (F.put s f ⟨v, true⟩) := by
  rw [h.apply_eq ht, WriteOnce.modify_eq_ok_iff.mpr ⟨hm, rfl⟩]
  rfl

/-- A call does not reach a field that it is not on. -/
theorem slot_leave_of_not_on (hon : ¬ F.On e f) : F.slot (leave (F.call e) s) f = F.slot s f := by
  rw [h.call_eq, leave_attempt]
  cases ha : F.apply s e with
  | error x => rfl
  | ok s' =>
    cases ht : F.move e with
    | change program => exact congrFun (h.slot_eq ht ha) f
    | modify g v =>
      have hne : f ≠ g := fun heq => hon ⟨heq ▸ v, by subst heq; exact ht⟩
      rw [h.apply_eq ht, bind_eq_ok_iff] at ha
      obtain ⟨w, -, hs'⟩ := ha
      obtain rfl : F.put s g w = s' := Except.ok.inj hs'
      exact h.slot_put_of_ne hne s w

theorem slot_leave_of_on {v : Option (F.Value f)} (ht : F.move e = .modify f v) :
    F.slot (leave (F.call e) s) f =
      if (F.slot s f).modified then F.slot s f else ⟨v, true⟩ := by
  rw [h.call_eq, leave_attempt]
  cases hm : (F.slot s f).modified with
  | true => rw [h.apply_of_modified ht hm]; rfl
  | false => rw [h.apply_of_unmodified ht hm]; exact h.slot_put_self ..

/-- A field that has been modified stays as it is. -/
theorem slot_after_of_modified (es : List ε) (hm : (F.slot s f).modified = true) :
    F.slot (F.after s es) f = F.slot s f := by
  induction es generalizing s with
  | nil => rfl
  | cons e rest ih =>
    have hstep : F.slot (leave (F.call e) s) f = F.slot s f := by
      by_cases hon : F.On e f
      · obtain ⟨v, ht⟩ := hon
        rw [h.slot_leave_of_on ht, if_pos hm]
      · exact h.slot_leave_of_not_on hon
    exact (ih (hstep ▸ hm)).trans hstep

/-- The first call on a field modifies it, and no later one does. -/
theorem slot_after (es : List ε) (hm : (F.slot s f).modified = false) :
    F.slot (F.after s es) f =
      match es.findSome? (F.valueOn f) with
      | some v => ⟨v, true⟩
      | none => F.slot s f := by
  induction es generalizing s with
  | nil => rfl
  | cons e rest ih =>
    -- Either this call is the first on the field, and the rest changes nothing, or it passes it by.
    rw [List.findSome?_cons]
    cases hv : F.valueOn f e with
    | some v =>
      have hstep := h.slot_leave_of_on (s := s) (valueOn_eq_some_iff.mp hv)
      rw [hm] at hstep
      exact (h.slot_after_of_modified rest (by rw [hstep]; rfl)).trans hstep
    | none =>
      have hstep := h.slot_leave_of_not_on (s := s) (valueOn_eq_none_iff.mp hv)
      have hrest := ih (hstep ▸ hm)
      rw [hstep] at hrest
      exact hrest

theorem modified_after_iff (es : List ε) (hm : (F.slot s f).modified = false) :
    (F.slot (F.after s es) f).modified = true ↔ ∃ e ∈ es, F.On e f := by
  rw [h.slot_after es hm]
  cases hv : es.findSome? (F.valueOn f) with
  | some v =>
    obtain ⟨e, he, hev⟩ := List.exists_of_findSome?_eq_some hv
    exact iff_of_true rfl ⟨e, he, v, valueOn_eq_some_iff.mp hev⟩
  | none =>
    rw [List.findSome?_eq_none_iff] at hv
    refine iff_of_false (by simp [hm]) ?_
    rintro ⟨e, he, hon⟩
    exact valueOn_eq_none_iff.mp (hv e he) hon

/-- What holds of all sequences of calls from a state in which no field has been modified. -/
theorem disciplined (hs : ∀ f, (F.slot s f).modified = false) : F.Disciplined s where
  exists_call := h.exists_call
  call_eq := h.call_eq
  unchanged es e x s' he := by
    rw [h.call_eq] at he
    exact (attempt_eq_error_iff.mp he).2
  refused_iff es e f := by
    rintro ⟨v, ht⟩
    rw [← h.modified_after_iff es (hs f)]
    simp only [h.call_eq, attempt_eq_error_iff]
    cases hm : (F.slot (F.after s es) f).modified with
    | true => simp [h.apply_of_modified ht hm]
    | false => simp [h.apply_of_unmodified ht hm]
  accepted es e f := by
    rintro ⟨v, ht⟩ hnone
    have hm : (F.slot (F.after s es) f).modified = false := by
      rw [← Bool.not_eq_true, h.modified_after_iff es (hs f)]
      rintro ⟨e', he', hon⟩
      exact hnone e' he' hon
    exact ⟨_, by rw [h.call_eq, attempt_of_ok (h.apply_of_unmodified ht hm)]⟩
  value_eq es f := by
    rw [h.slot_after es (hs f)]
    cases es.findSome? (F.valueOn f) <;> rfl

theorem settles {before : F.Values} (hs : ∀ f, F.slot s f = .ofOption (before f)) :
    F.Settles s before := by
  have hlaw := h.disciplined (s := s) fun f => by rw [hs f, WriteOnce.modified_ofOption]
  refine ⟨hlaw, hs, fun es f => ?_⟩
  rw [hlaw.value_eq, hs f, WriteOnce.value_ofOption, decided]

end Lawful
end Slots
end BatchFlow

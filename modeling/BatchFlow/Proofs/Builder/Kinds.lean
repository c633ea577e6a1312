import BatchFlow.Proofs.Builder.Fields

/-!
# The fields of actions

The slots of a draft, whatever its kind, see to what slots have to see to. What settings tell of the
fields ties both ends of a draft together: settings that are copied into a draft make the values
that its fields have at first, and the settings that are read off a draft tell the values that its
fields have in the end.
-/

namespace BatchFlow

namespace Kind

/-- The slots of a custom action, which is complete from the start. -/
def customSlots : Slots (Option Json) Empty where
  Field := Empty
  decEq := inferInstance
  Value := nofun
  text := nofun
  slot _ := nofun
  put _ := nofun
  move := nofun
  apply _ := nofun

def slots : (k : Kind) → Slots k.Draft k.Edit
  | email => Email.Draft.slots
  | fileSystem => FileSystem.Draft.slots
  | mapReduce => MapReduce.Draft.slots
  | shell => Shell.Draft.slots
  | subWorkflow => SubWorkflow.Draft.slots
  | custom _ => customSlots

theorem slots_apply (k : Kind) : k.slots.apply = k.applyEdit := by
  cases k with
  | custom name => funext _ e; exact nomatch e
  | _ => rfl

/-! ### What the slots see to

In the kinds that have a configuration, its properties are fields too. All other fields are those of
a record. -/

theorem exists_call (k : Kind) (f : k.slots.Field) (v : k.slots.Value f) :
    ∃ e, k.slots.move e = .modify f (some v) := by
  cases k with
  | email =>
    cases f with
    | subject => exact ⟨.subject v, rfl⟩
    | body => exact ⟨.body v, rfl⟩
    | contentType => exact ⟨.contentType v, rfl⟩
    | attachment => exact ⟨.attachment v, rfl⟩
  | fileSystem =>
    cases f with
    | nameNode => exact ⟨.nameNode v, rfl⟩
    | property key => exact ⟨.configuration (.set key v), rfl⟩
  | mapReduce =>
    cases f with
    | jobTracker => exact ⟨.jobTracker v, rfl⟩
    | nameNode => exact ⟨.nameNode v, rfl⟩
    | prepare => exact ⟨.prepare v, rfl⟩
    | configClass => exact ⟨.configClass v, rfl⟩
    | property key => exact ⟨.configuration (.set key v), rfl⟩
  | shell =>
    cases f with
    | jobTracker => exact ⟨.jobTracker v, rfl⟩
    | nameNode => exact ⟨.nameNode v, rfl⟩
    | prepare => exact ⟨.prepare v, rfl⟩
    | exec => exact ⟨.exec v, rfl⟩
    | captureOutput => exact ⟨.captureOutput v, rfl⟩
    | property key => exact ⟨.configuration (.set key v), rfl⟩
  | subWorkflow =>
    cases f with
    | application => exact ⟨.application v, rfl⟩
    | propagateConfiguration => exact ⟨.propagateConfiguration v, rfl⟩
    | property key => exact ⟨.configuration (.set key v), rfl⟩
  | custom name => cases f

theorem apply_eq_of_modify (k : Kind) {e : k.Edit} {f : k.slots.Field}
    {v : Option (k.slots.Value f)} (he : k.slots.move e = .modify f v) (d : k.Draft) :
    k.slots.apply d e =
      do return k.slots.put d f (← (k.slots.slot d f).modify (k.slots.text f) v) := by
  cases k with
  | email => cases e <;> cases he <;> rfl
  | fileSystem | mapReduce | shell | subWorkflow =>
    cases e with
    | configuration e => cases he; exact bind_assoc _ _ _
    | _ => cases he <;> rfl
  | custom name => cases e

theorem change_eq (k : Kind) {e : k.Edit} {program : EStateM BuildError k.Draft Unit}
    (he : k.slots.move e = .change program) : program = attempt (k.slots.apply · e) := by
  cases k <;> cases e <;> cases he <;> rfl

theorem slot_put_self (k : Kind) (d : k.Draft) (f : k.slots.Field)
    (w : WriteOnce (k.slots.Value f)) : k.slots.slot (k.slots.put d f w) f = w := by
  cases k with
  | email => cases f <;> rfl
  | fileSystem | mapReduce | shell | subWorkflow =>
    cases f with
    | property key => exact Configuration.Draft.slot_insert_self ..
    | _ => rfl
  | custom name => cases f

theorem slot_put_of_ne (k : Kind) {f g : k.slots.Field} (hne : g ≠ f) (d : k.Draft)
    (w : WriteOnce (k.slots.Value f)) : k.slots.slot (k.slots.put d f w) g = k.slots.slot d g := by
  cases k with
  | email => cases f <;> cases g <;> (try contradiction) <;> rfl
  | fileSystem | mapReduce | shell | subWorkflow =>
    cases f with
    | property key =>
      cases g with
      | property other =>
        have hkey : other ≠ key := fun h => hne (by rw [h])
        exact Configuration.Draft.slot_insert_of_ne hkey ..
      | _ => rfl
    | _ => cases g <;> (try contradiction) <;> rfl
  | custom name => cases f

theorem put_slot (k : Kind) {d : k.Draft} {f : k.slots.Field}
    (hm : (k.slots.slot d f).modified = true) : k.slots.put d f (k.slots.slot d f) = d := by
  cases k with
  | email => cases f <;> rfl
  | fileSystem | mapReduce | shell | subWorkflow =>
    cases f with
    | property key =>
      exact congrArg (fun c => { d with configuration := c }) (Configuration.Draft.insert_slot hm)
    | _ => rfl
  | custom name => cases f

theorem slot_eq_of_change (k : Kind) {e : k.Edit} {program : EStateM BuildError k.Draft Unit}
    (he : k.slots.move e = .change program) {d d' : k.Draft} (hd : k.slots.apply d e = .ok d') :
    k.slots.slot d' = k.slots.slot d := by
  cases k <;> cases e <;> cases he <;> cases hd <;> rfl

theorem slots_lawful (k : Kind) : k.slots.Lawful where
  exists_call := k.exists_call
  apply_eq := k.apply_eq_of_modify
  change_eq := k.change_eq
  slot_put_self := k.slot_put_self
  slot_put_of_ne := k.slot_put_of_ne
  put_slot := k.put_slot
  slot_eq := k.slot_eq_of_change

/-! ### What drafts hold -/

/-- What settings tell of each field. -/
def told : (k : Kind) → k.Settings → k.slots.Values
  | email => Email.Draft.told
  | fileSystem => FileSystem.Draft.told
  | mapReduce => MapReduce.Draft.told
  | shell => Shell.Draft.told
  | subWorkflow => SubWorkflow.Draft.told
  | custom _ => fun _ => nofun

/-- What is told of a field without a value. Only flags are told even then. -/
def blank : (k : Kind) → k.slots.Values
  | shell => Shell.Draft.blank
  | subWorkflow => SubWorkflow.Draft.blank
  | _ => fun _ => none

/-- A new draft holds nothing. -/
theorem slot_draft (k : Kind) (f : k.slots.Field) : k.slots.slot k.draft f = .ofOption none := by
  cases k <;> cases f <;> rfl

/-- A copied draft holds what the settings tell, and no field of it has been modified. -/
theorem slot_draftOf (k : Kind) (s : k.Settings) (f : k.slots.Field) :
    k.slots.slot (k.draftOf s) f = .ofOption (k.told s f) := by
  cases k with
  | email => cases f <;> rfl
  | fileSystem | mapReduce | shell | subWorkflow =>
    cases f with
    | property key => exact Configuration.Draft.slot_ofConfiguration s.configuration key
    | _ => rfl
  | custom name => cases f

/-- The settings tell the values that the draft holds. -/
theorem told_settingsOf (k : Kind) (d : k.Draft) (f : k.slots.Field) :
    k.told (k.settingsOf d) f = (k.slots.slot d f).value.or (k.blank f) := by
  have hsame {α : Type} {v w : Option α} (h : v = w) : v = w.or none := h.trans Option.or_none.symm
  have hproperty (c : Configuration.Draft) (key : String) :
      c.build.get? key = (c.slot key).value.or none := hsame (c.get?_build key)
  have hflag (flag : Option Bool) : some (flag.getD false) = flag.or (some false) := by
    cases flag <;> rfl
  cases k with
  | email => cases f <;> exact hsame rfl
  | fileSystem | mapReduce =>
    cases f with
    | property key => exact hproperty d.configuration key
    | _ => exact hsame rfl
  | shell =>
    cases f with
    | property key => exact hproperty d.configuration key
    | captureOutput => exact hflag d.captureOutput.value
    | _ => exact hsame rfl
  | subWorkflow =>
    cases f with
    | property key => exact hproperty d.configuration key
    | propagateConfiguration => exact hflag d.propagateConfiguration.value
    | _ => exact hsame rfl
  | custom name => cases f

end Kind

namespace Action

theorem settingsAs?_self {a : Action} {k : Kind} {s : k.Settings} (h : a = ⟨k, s⟩) :
    a.settingsAs? k = some s := by
  subst h
  exact dif_pos rfl

theorem settingsAs?_of_ne {a : Action} {k : Kind} (h : a.kind ≠ k) : a.settingsAs? k = none :=
  dif_neg h

end Action
end BatchFlow

import BatchFlow.Proofs.Builder.Kinds
import BatchFlow.Proofs.Workflow.Made

/-!
# The discipline of builders

The slots of a builder are those of its node and those of its action. Wherever a builder comes from,
its fields hold what it was made from and none of them has been modified. So whatever is called on
it, each field takes the value of the first call on it and no other, a field without a call keeps
the value that was copied, and that is what the builder tells of its node and of its action.
-/

namespace BatchFlow

namespace Builder

variable {k : Kind}

/-- A builder's fields are those of its node and those of its action. -/
def slots (k : Kind) : Slots (Builder k) (Edit k) where
  Field := NodeDraft.Field ⊕ k.slots.Field
  decEq := inferInstance
  Value
    | .inl f => NodeDraft.slots.Value f
    | .inr f => k.slots.Value f
  text
    | .inl f => NodeDraft.slots.text f
    | .inr f => k.slots.text f
  slot b
    | .inl f => NodeDraft.slots.slot b.node f
    | .inr f => k.slots.slot b.draft f
  put b
    | .inl f, w => { b with node := NodeDraft.slots.put b.node f w }
    | .inr f, w => { b with draft := k.slots.put b.draft f w }
  move
    | .node e =>
      match NodeDraft.slots.move e with
      | .modify f v => .modify (.inl f) v
      | .change program => .change (within node (fun b d => { b with node := d }) program)
    | .action e =>
      match k.slots.move e with
      | .modify f v => .modify (.inr f) v
      | .change program => .change (within draft (fun b d => { b with draft := d }) program)
  apply := apply

theorem slots_lawful (k : Kind) : (slots k).Lawful where
  exists_call f v := by
    cases f with
    | inl f =>
      obtain ⟨e, he⟩ := NodeDraft.slots_lawful.exists_call f v
      exact ⟨.node e, by simp only [slots, he]⟩
    | inr f =>
      obtain ⟨e, he⟩ := k.slots_lawful.exists_call f v
      exact ⟨.action e, by simp only [slots, he]⟩
  apply_eq {e f v} he b := by
    cases e with
    | node e =>
      cases hm : NodeDraft.slots.move e with
      | change program => simp only [slots, hm, reduceCtorEq] at he
      | modify g w =>
        simp only [slots, hm] at he
        cases he
        exact (congrArg (· >>= _) (NodeDraft.slots_lawful.apply_eq hm b.node)).trans (bind_assoc ..)
    | action e =>
      cases hm : k.slots.move e with
      | change program => simp only [slots, hm, reduceCtorEq] at he
      | modify g w =>
        simp only [slots, hm] at he
        cases he
        have happly := k.slots_lawful.apply_eq hm b.draft
        rw [k.slots_apply] at happly
        exact (congrArg (· >>= _) happly).trans (bind_assoc ..)
  change_eq {e program} he := by
    cases e with
    | node e =>
      cases hm : NodeDraft.slots.move e with
      | modify g w => simp only [slots, hm, reduceCtorEq] at he
      | change program' =>
        simp only [slots, hm] at he
        cases he
        rw [NodeDraft.slots_lawful.change_eq hm]
        exact within_attempt fun _ _ _ => rfl
    | action e =>
      cases hm : k.slots.move e with
      | modify g w => simp only [slots, hm, reduceCtorEq] at he
      | change program' =>
        simp only [slots, hm] at he
        cases he
        rw [k.slots_lawful.change_eq hm, k.slots_apply]
        exact within_attempt fun _ _ _ => rfl
  slot_put_self b f w := by
    cases f with
    | inl f => exact NodeDraft.slots_lawful.slot_put_self b.node f w
    | inr f => exact k.slots_lawful.slot_put_self b.draft f w
  slot_put_of_ne {f g} hne b w := by
    cases f with
    | inl f =>
      cases g with
      | inl g => exact NodeDraft.slots_lawful.slot_put_of_ne (mt (congrArg Sum.inl) hne) b.node w
      | inr g => rfl
    | inr f =>
      cases g with
      | inl g => rfl
      | inr g => exact k.slots_lawful.slot_put_of_ne (mt (congrArg Sum.inr) hne) b.draft w
  put_slot {b f} hm := by
    cases f with
    | inl f => exact congrArg (fun d => { b with node := d }) (NodeDraft.slots_lawful.put_slot hm)
    | inr f => exact congrArg (fun d => { b with draft := d }) (k.slots_lawful.put_slot hm)
  slot_eq {e program} he b b' hb := by
    cases e with
    | node e =>
      cases hm : NodeDraft.slots.move e with
      | modify g w => simp only [slots, hm, reduceCtorEq] at he
      | change program' =>
        obtain ⟨d, hd, hb'⟩ := bind_eq_ok_iff.mp hb
        cases hb'
        have hslot := NodeDraft.slots_lawful.slot_eq hm hd
        funext f
        cases f with
        | inl f => exact congrFun hslot f
        | inr f => rfl
    | action e =>
      cases hm : k.slots.move e with
      | modify g w => simp only [slots, hm, reduceCtorEq] at he
      | change program' =>
        obtain ⟨d, hd, hb'⟩ := bind_eq_ok_iff.mp hb
        cases hb'
        have hslot := k.slots_lawful.slot_eq hm (k.slots_apply ▸ hd)
        funext f
        cases f with
        | inl f => rfl
        | inr f => exact congrFun hslot f

/-! ### Where builders come from -/

/-- Values for the fields of a builder, from those for its node and those for its action. -/
def values (node : NodeDraft.slots.Values) (action : k.slots.Values) : (slots k).Values
  | .inl f => node f
  | .inr f => action f

/-- What a builder tells of the fields: what it knows of its node, and its action as it stands. -/
def told (b : Builder k) : (slots k).Values :=
  values (NodeDraft.told b.node.spec) (k.told b.action.settings)

/-- What is told of a field without a value. -/
def blank (k : Kind) : (slots k).Values := values (fun _ => none) k.blank

/-- Where a builder comes from, with the values that its fields have from there. -/
inductive Started : Builder k → (slots k).Values → Prop
  /-- A new builder has no values. -/
  | new : Started (new k) fun _ => none
  /-- From settings come the values of the action, and nothing is known of the node. -/
  | ofSettings (s : k.Settings) : Started (ofSettings k s) (values (fun _ => none) (k.told s))
  | ofNode {n : Node} {s : k.Settings} {b : Builder k} (hs : n.action = ⟨k, s⟩)
      (h : ofNode k n = .ok b) : Started b (values (NodeDraft.toldBy n) (k.told s))

theorem ofNode_eq_ok_iff {n : Node} {b : Builder k} : ofNode k n = .ok b ↔
    ∃ s, n.action.settingsAs? k = some s ∧ b = { node := .ofNode n, draft := k.draftOf s } := by
  unfold ofNode
  cases n.action.settingsAs? k with
  | none => simp
  | some s => simp [@eq_comm _ b]

/-- At the start the fields hold what the builder was made from, and none has been modified. -/
theorem Started.slot_eq {b : Builder k} {before : (slots k).Values} (h : b.Started before)
    (f : (slots k).Field) : (slots k).slot b f = .ofOption (before f) := by
  cases h with
  | new =>
    cases f with
    | inl f => cases f <;> rfl
    | inr f => exact k.slot_draft f
  | ofSettings s =>
    cases f with
    | inl f => cases f <;> rfl
    | inr f => exact k.slot_draftOf s f
  | @ofNode n s _ hs hb =>
    obtain ⟨s', hs', rfl⟩ := ofNode_eq_ok_iff.mp hb
    obtain rfl : s = s' := Option.some.inj ((Action.settingsAs?_self hs).symm.trans hs')
    cases f with
    | inl f => exact NodeDraft.slot_ofNode n f
    | inr f => exact k.slot_draftOf s f

/-- A builder tells the values that its fields hold. -/
theorem told_eq (b : Builder k) (f : (slots k).Field) :
    b.told f = ((slots k).slot b f).value.or (blank k f) := by
  cases f with
  | inl f => exact (NodeDraft.told_spec b.node f).trans Option.or_none.symm
  | inr f => exact k.told_settingsOf b.draft f

end Builder

namespace Workflow.Draft

/-- A workflow tells the values that the fields of its draft held. -/
theorem told_of_build {d : Draft} {source : Dag} {w : Workflow} (h : d.build source = .ok w)
    (f : slots.Field) : told w f = (slots.slot d f).value := by
  obtain ⟨name, hname, -, rfl⟩ := made_of_build h
  cases f with
  | name => exact hname.symm
  | global => rfl

end Workflow.Draft

/-- Whatever is called on a builder of a node or of a workflow, in whichever order and with refused
calls among the others, each field can be modified exactly once. A field that no call is on keeps
what the builder was made from. In the end the builder tells the values so decided, a flag being off
if it has none, and so does a workflow that is built. -/
theorem builders_disciplined :
    (∀ (k : Kind) (b : Builder k) (before : (Builder.slots k).Values), b.Started before →
      (Builder.slots k).Settles b before ∧
      ∀ es f, ((Builder.slots k).after b es).told f =
        ((Builder.slots k).decided before es f).or (Builder.blank k f)) ∧
    Workflow.Draft.slots.Settles {} (fun _ => none) ∧
    ∀ es source w, (Workflow.Draft.slots.after {} es).build source = .ok w →
      Workflow.Draft.told w = Workflow.Draft.slots.decided (fun _ => none) es := by
  have hworkflow : Workflow.Draft.slots.Settles {} (fun _ => none) :=
    Workflow.Draft.slots_lawful.settles fun f => by cases f <;> rfl
  refine ⟨fun k b before hb => ?_, hworkflow, fun es source w hw => ?_⟩
  · have hsettles := (Builder.slots_lawful k).settles hb.slot_eq
    refine ⟨hsettles, fun es f => ?_⟩
    rw [Builder.told_eq, hsettles.after_eq]
  · funext f
    rw [Workflow.Draft.told_of_build hw, hworkflow.after_eq]

/-! ### A builder that starts from settings -/

namespace Builder

def exporterSettings : Shell where
  exec := some "export.sh"
  captureOutput := true
  configuration := .ofList [("queue", "low"), ("owner", "us"), ("depth", "2")]

def exporter : Builder .shell := ofSettings .shell exporterSettings

/-- Calls on the builder, three of which are refused. -/
def exporterCalls : List (Edit .shell) :=
  [.node (.name "export"), .action (.captureOutput false), .node .noHandler,
    .action (.configuration (.remove "owner")), .action (.captureOutput true),
    .action (.configuration (.set "owner" "them")), .node (.parent 0 none),
    .node (.parent 0 (some .otherwise)), .action (.configuration (.set "retries" "3"))]

def exported : Builder .shell := (slots .shell).after exporter exporterCalls

end Builder

/-- What was copied and not called on is told as it was, and a second name is refused. -/
theorem exporter_disciplined :
    (∃ before, Builder.exporter.Started before ∧
      before (.inr .exec) = some "export.sh" ∧ before (.inr .captureOutput) = some true) ∧
    (∃ b', (Builder.slots .shell).call (.action (.configuration (.set "owner" "all")))
      Builder.exported = .error (.alreadySet "configuration property 'owner'") b') ∧
    Builder.exported.told (.inr .exec) = some "export.sh" ∧
    Builder.exported.told (.inr .captureOutput) = some false ∧
    Builder.exported.told (.inr (.property "queue")) = some "low" ∧
    Builder.exported.told (.inr (.property "owner")) = none ∧
    Builder.exported.told (.inl .name) = some "export" ∧
    ∃ w, (Workflow.Draft.slots.after {} [.name "nightly", .name "daily"]).build {} = .ok w ∧
      Workflow.Draft.told w .name = some "nightly" := by
  have hstart := Builder.Started.ofSettings (k := .shell) Builder.exporterSettings
  obtain ⟨hsettles, htold⟩ := builders_disciplined.1 .shell Builder.exporter _ hstart
  have hworkflow := builders_disciplined.2.2 [.name "nightly", .name "daily"] {} _ rfl
  refine ⟨⟨_, hstart, rfl, rfl⟩, ?_, htold Builder.exporterCalls _, htold Builder.exporterCalls _,
    htold Builder.exporterCalls _, htold Builder.exporterCalls _, htold Builder.exporterCalls _,
    _, rfl, congrFun hworkflow .name⟩
  have hon : (Builder.slots .shell).On (.action (.configuration (.remove "owner")))
      (.inr (.property "owner")) := ⟨none, rfl⟩
  have hagain : (Builder.slots .shell).On (.action (.configuration (.set "owner" "all")))
      (.inr (.property "owner")) := ⟨some "all", rfl⟩
  exact (hsettles.refused_iff _ _ _ hagain).mpr ⟨_, by simp [Builder.exporterCalls], hon⟩

end BatchFlow

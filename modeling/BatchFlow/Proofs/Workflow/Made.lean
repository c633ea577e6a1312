import BatchFlow.Workflow
import BatchFlow.Proofs.Dag.Edges

/-!
# What a draft of a workflow makes

Building looks at the name, then at the entries, then at the names of the nodes that it copied. What
it makes if all is well is one workflow, which later proofs take up instead of the steps.
-/

namespace BatchFlow
namespace Workflow.Draft

variable {draft : Draft} {d : Dag} {name : String} {w : Workflow}

/-- The workflow that a draft makes if nothing is wrong with it. -/
def made (draft : Draft) (d : Dag) (name : String) : Workflow :=
  let copy := d.subset (d.connected draft.entries)
  { name
    dag := copy
    roots := (copy.nodes.filter fun n => n.parents.isEmpty).map Node.id
    parameters := draft.parameters
    global := draft.global.value
    credentials := draft.credentials }

/-- The first entry that is not in the dag is the one that is reported. -/
theorem forM_node_eq (d : Dag) (entries : List NodeId) :
    entries.forM (fun e => do let _ ← d.node e) =
      match entries.find? (d.size ≤ ·) with
      | some x => .error (.unknownNode x)
      | none => .ok () := by
  induction entries with
  | nil => rfl
  | cons x rest ih =>
    rw [List.find?_cons]
    by_cases hx : d.size ≤ x
    · refine (bind_eq_error_iff (e := .unknownNode x)).mpr (.inl ?_) |>.trans (by simp [hx])
      exact bind_eq_error_iff.mpr (.inl (Dag.node_eq_error_iff.mpr ⟨hx, rfl⟩))
    · obtain ⟨n, hn⟩ := Dag.get?_eq_some_iff.mpr (Nat.lt_of_not_le hx)
      have hfirst : (do let _ ← d.node x : Except BuildError Unit) = .ok () := by
        rw [Dag.node_eq_ok_iff.mpr hn]
        rfl
      simp only [hx, decide_false]
      refine Eq.trans ?_ ih
      show ((do let _ ← d.node x : Except BuildError Unit) >>= _) = _
      rw [hfirst, ok_bind]

theorem build_eq (d : Dag) (hname : draft.name.value = some name) : draft.build d =
    match draft.entries.find? (d.size ≤ ·) with
    | some x => .error (.unknownNode x)
    | none =>
        match (d.subset (d.connected draft.entries)).repeatedName? with
        | some r => .error (.duplicateName r name)
        | none => .ok (draft.made d name) := by
  unfold build
  rw [hname, forM_node_eq]
  cases draft.entries.find? (d.size ≤ ·) with
  | some x => rfl
  | none =>
    show (match (d.subset (d.connected draft.entries)).repeatedName? with
      | some r => throw (BuildError.duplicateName r name)
      | none => pure (draft.made d name)) = _
    cases (d.subset (d.connected draft.entries)).repeatedName? <;> rfl

theorem build_eq_ok_iff (hname : draft.name.value = some name) : draft.build d = .ok w ↔
    draft.entries.find? (d.size ≤ ·) = none ∧
      (d.subset (d.connected draft.entries)).repeatedName? = none ∧ w = draft.made d name := by
  rw [build_eq d hname]
  cases draft.entries.find? (d.size ≤ ·) with
  | some x => simp
  | none =>
    cases (d.subset (d.connected draft.entries)).repeatedName? with
    | some r => simp
    | none => simp [@eq_comm _ w]

theorem build_of_unnamed (d : Dag) (hname : draft.name.value = none) :
    draft.build d = .error (.missingName .workflow) := by
  unfold build
  rw [hname]
  rfl

/-- Only a draft with a name builds a workflow. -/
theorem made_of_build (hb : draft.build d = .ok w) : ∃ name, draft.name.value = some name ∧
    (d.subset (d.connected draft.entries)).repeatedName? = none ∧ w = draft.made d name := by
  cases hname : draft.name.value with
  | none => cases (build_of_unnamed d hname).symm.trans hb
  | some name => exact ⟨name, rfl, ((build_eq_ok_iff hname).mp hb).2⟩

end Workflow.Draft
end BatchFlow

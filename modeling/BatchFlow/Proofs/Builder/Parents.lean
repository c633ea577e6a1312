import BatchFlow.Proofs.Builder.Discipline
import BatchFlow.Proofs.Workflow.Built

/-!
# The parents of a builder

A builder keeps its plain parents and its conditional ones apart, and no id is ever in the two lists
more than once. So a parent that is removed is gone from both lists, a parent that is added comes
last in its own list, and adding a parent and removing it leaves no trace.

That no id is there twice rests on more than the calls: the lists may be those of a node, in a dag or
in a workflow, where a node has got new ids.
-/

namespace BatchFlow

namespace NodeDraft

variable {d : NodeDraft} {id : NodeId} {c : Condition}

/-! ## Removing a parent -/

theorem removeParent_of_not_mem (h : id ∉ d.parents) :
    d.removeParent id = .error (.unknownParent id) := by
  rw [parents, List.mem_append, not_or] at h
  unfold removeParent
  rw [if_neg fun hc => h.1 (List.contains_iff_mem.mp hc),
    if_neg fun hc => h.2 (List.contains_iff_mem.mp hc)]

/-- The first place of the id is the only one that it has. -/
theorem removeParent_plain {before after : List NodeId} (hnodup : d.parents.Nodup)
    (h : d.plainParents = before ++ id :: after) :
    d.removeParent id = .ok { d with plainParents := before ++ after } := by
  have hbefore : id ∉ before := by
    rw [parents, h, List.append_assoc] at hnodup
    exact fun hmem => (List.nodup_append.mp hnodup).2.2 id hmem id
      (List.mem_append_left _ List.mem_cons_self) rfl
  unfold removeParent
  rw [if_pos (List.contains_iff_mem.mpr (by simp [h])), h, List.erase_append_right _ hbefore,
    List.erase_cons_head]

theorem removeParent_conditional {before after : List Branch} (hnodup : d.parents.Nodup)
    (h : d.conditionalParents = before ++ ⟨id, c⟩ :: after) :
    d.removeParent id = .ok { d with conditionalParents := before ++ after } := by
  rw [parents, h, List.map_append, List.map_cons] at hnodup
  obtain ⟨-, hconditional, hapart⟩ := List.nodup_append.mp hnodup
  have hplain : id ∉ d.plainParents := fun hmem => hapart id hmem id (by simp) rfl
  have hbefore : ∀ b ∈ before, ¬ (b.node == id) = true := by
    intro b hb heq
    exact (List.nodup_append.mp hconditional).2.2 b.node (List.mem_map_of_mem hb) id
      List.mem_cons_self (beq_iff_eq.mp heq)
  unfold removeParent
  rw [if_neg fun hc => hplain (List.contains_iff_mem.mp hc),
    if_pos (List.contains_iff_mem.mpr (by simp [h])), h, List.eraseP_append_right _ hbefore,
    List.eraseP_cons_of_pos (p := fun b : Branch => b.node == id) (beq_self_eq_true id)]

theorem exists_removeParent (hnodup : d.parents.Nodup) (h : id ∈ d.parents) :
    ∃ d', d.removeParent id = .ok d' := by
  rcases List.mem_append.mp h with hplain | hconditional
  · obtain ⟨before, after, hsplit⟩ := List.append_of_mem hplain
    exact ⟨_, removeParent_plain hnodup hsplit⟩
  · obtain ⟨⟨_, c⟩, hb, rfl⟩ := List.mem_map.mp hconditional
    obtain ⟨before, after, hsplit⟩ := List.append_of_mem hb
    exact ⟨_, removeParent_conditional hnodup hsplit⟩

/-- What was added last is taken back. -/
theorem removeParent_withParent (hnodup : d.parents.Nodup) (h : id ∉ d.parents)
    (c : Option Condition) : (d.withParent id c).removeParent id = .ok d := by
  have hmore : (d.withParent id c).parents.Nodup :=
    (parents_withParent_perm d id c).nodup_iff.mpr (List.nodup_cons.mpr ⟨h, hnodup⟩)
  cases c with
  | none =>
    have hsplit : (d.withParent id none).plainParents = d.plainParents ++ id :: [] := rfl
    rw [removeParent_plain hmore hsplit]
    simp [withParent]
  | some c =>
    have hsplit : (d.withParent id (some c)).conditionalParents =
      d.conditionalParents ++ ⟨id, c⟩ :: [] := rfl
    rw [removeParent_conditional hmore hsplit]
    simp [withParent]

end NodeDraft

namespace Builder

variable {k : Kind} {b : Builder k}

/-- The builder with one more parent, behind the others of its sort. -/
def withParent (b : Builder k) (id : NodeId) (c : Option Condition) : Builder k :=
  { b with node := b.node.withParent id c }

/-- How the calls on parents go, for a builder in any state. -/
structure KeepsParents (b : Builder k) : Prop where
  nodup : (b.node.plainParents ++ b.node.conditionalParents.map Branch.node).Nodup
  duplicate_iff : ∀ id c, (∃ b', (slots k).call (.node (.parent id c)) b =
    .error (.duplicateParent id) b') ↔ id ∈ b.node.parents
  added : ∀ id c, id ∉ b.node.parents →
    (slots k).call (.node (.parent id c)) b = .ok () (b.withParent id c)
  unknown_iff : ∀ id, (∃ b', (slots k).call (.node (.dropParent id)) b =
    .error (.unknownParent id) b') ↔ id ∉ b.node.parents
  dropped_plain : ∀ id before after, b.node.plainParents = before ++ id :: after →
    (slots k).call (.node (.dropParent id)) b =
      .ok () { b with node := { b.node with plainParents := before ++ after } }
  dropped_conditional : ∀ id c before after,
    b.node.conditionalParents = before ++ ⟨id, c⟩ :: after →
    (slots k).call (.node (.dropParent id)) b =
      .ok () { b with node := { b.node with conditionalParents := before ++ after } }
  restored : ∀ id c, id ∉ b.node.parents → ∃ b',
    (slots k).call (.node (.parent id c)) b = .ok () b' ∧
    (slots k).call (.node (.dropParent id)) b' = .ok () b

/-! ## Calls -/

section

variable {e : NodeDraft.Edit}

theorem call_of_ok {d : NodeDraft} (h : b.node.apply e = .ok d) :
    (slots k).call (.node e) b = .ok () { b with node := d } := by
  have happly : b.apply (.node e) = .ok { b with node := d } := bind_eq_ok_iff.mpr ⟨d, h, rfl⟩
  rw [(slots_lawful k).call_eq]
  exact attempt_of_ok happly

theorem call_of_error {x : BuildError} (h : b.node.apply e = .error x) :
    (slots k).call (.node e) b = .error x b := by
  have happly : b.apply (.node e) = .error x := bind_eq_error_iff.mpr (.inl h)
  rw [(slots_lawful k).call_eq]
  exact attempt_eq_error_iff.mpr ⟨happly, rfl⟩

end

theorem keepsParents_of_nodup (h : b.node.parents.Nodup) : b.KeepsParents where
  nodup := h
  duplicate_iff id c := by
    by_cases hmem : id ∈ b.node.parents
    · exact iff_of_true ⟨b, call_of_error (NodeDraft.addParent_of_mem hmem c)⟩ hmem
    · simp [call_of_ok (e := .parent id c) (NodeDraft.addParent_of_not_mem hmem c), hmem]
  added id c hnew := call_of_ok (NodeDraft.addParent_of_not_mem hnew c)
  unknown_iff id := by
    by_cases hmem : id ∈ b.node.parents
    · obtain ⟨d, hd⟩ := NodeDraft.exists_removeParent h hmem
      simp [call_of_ok (e := .dropParent id) hd, hmem]
    · exact iff_of_true ⟨b, call_of_error (NodeDraft.removeParent_of_not_mem hmem)⟩ hmem
  dropped_plain id before after hplain := call_of_ok (NodeDraft.removeParent_plain h hplain)
  dropped_conditional id c before after hconditional :=
    call_of_ok (NodeDraft.removeParent_conditional h hconditional)
  restored id c hnew := ⟨b.withParent id c, call_of_ok (NodeDraft.addParent_of_not_mem hnew c),
    call_of_ok (NodeDraft.removeParent_withParent h hnew c)⟩

end Builder

/-- Calls in a row lead from what is reached to what is reached, whether they are refused or not. -/
theorem Artifact.Reached.after {k : Kind} {b : Builder k} (h : Reached (.builder k b))
    (es : List (Builder.Edit k)) : Reached (.builder k ((Builder.slots k).after b es)) := by
  induction es generalizing b with
  | nil => exact h
  | cons e rest ih =>
    refine ih (b := leave ((Builder.slots k).call e) b) ?_
    rw [(Builder.slots_lawful k).call_eq, leave_attempt]
    cases he : (Builder.slots k).apply b e with
    | ok b' => exact h.edit he
    | error x => exact h

/-- Wherever a builder comes from and whatever is called on it, it keeps its parents apart. -/
theorem Artifact.Reached.keepsParents {k : Kind} {b : Builder k} (h : Reached (.builder k b))
    (es : List (Builder.Edit k)) : ((Builder.slots k).after b es).KeepsParents :=
  Builder.keepsParents_of_nodup (h.after es).sound

namespace Builder

/-- A builder that repeats the last node of a workflow. -/
def publisher : Builder (.custom "none") where
  node := .ofNode
    { id := 5, name := "publish", plainParents := [4]
      conditionalParents := [⟨3, .labeled "small"⟩], handler := none
      action := ⟨.custom "none", none⟩ }
  draft := none

theorem publisher_reached : Artifact.Reached (.builder (.custom "none") publisher) := by
  have hnode : Workflow.nightly.nodes[5]? = some _ := rfl
  exact .workflowNode Workflow.nightly_built (List.mem_of_getElem? hnode) rfl

/-- Calls on the builder, the first, the third and the last of which are refused. -/
def publisherCalls : List (Edit (.custom "none")) :=
  [.node (.parent 3 none), .node (.dropParent 3), .node (.dropParent 3), .node (.parent 0 none),
    .node (.parent 3 (some .otherwise)), .node (.parent 0 (some (.labeled "small")))]

theorem publisher_keepsParents :
    Artifact.Reached (.builder (.custom "none") publisher) ∧
    ((slots (.custom "none")).after publisher publisherCalls).KeepsParents ∧
    ((slots (.custom "none")).after publisher publisherCalls).node.plainParents = [4, 0] ∧
    ((slots (.custom "none")).after publisher publisherCalls).node.conditionalParents =
      [⟨3, .otherwise⟩] :=
  ⟨publisher_reached, publisher_reached.keepsParents publisherCalls, rfl, rfl⟩

end Builder
end BatchFlow

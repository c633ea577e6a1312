import BatchFlow.Proofs.Dag.InPlace
import BatchFlow.Proofs.Workflow.Built
import Mathlib.Logic.Relation

/-!
# The arena of a dag

Whatever builders build into a dag, with or without success, each edge is recorded once at both of
its ends, in lists of the same sort and under the same condition; edges go from smaller to greater
ids; and child lists are in order, of one sort, and hold one default at most. The dag of a workflow
is renumbered from such a dag, and all this holds of it again.
-/

namespace BatchFlow
namespace Dag

/-- One node lists another as a child. -/
def Child (d : Dag) (p c : NodeId) : Prop := ∃ m, d.get? p = some m ∧ c ∈ m.children

/-- What later stages take for granted of the nodes and edges of a dag. -/
structure Coherent (d : Dag) : Prop where
  id_eq : ∀ (i : Nat) n, d.get? i = some n → n.id = i
  parent_lt : ∀ (i : Nat) n, d.get? i = some n → ∀ p : Nat, p ∈ n.parents → p < i
  acyclic : ∀ i, ¬ Relation.TransGen d.Child i i
  /-- Both ends of an edge record it, plainly or under the same condition. -/
  edge_iff : ∀ (p c : NodeId) k, (∃ m, d.get? p = some m ∧ m.HasChild c k) ↔
    ∃ n, d.get? c = some n ∧ n.HasParent p k
  /-- An edge is recorded once, in one of the two lists at each end. -/
  children_nodup : ∀ (i : Nat) n, d.get? i = some n → n.children.Nodup
  parents_nodup : ∀ (i : Nat) n, d.get? i = some n → n.parents.Nodup
  one_way : ∀ a b, d.Child a b → ¬ d.Child b a
  tidy : ∀ (i : Nat) n, d.get? i = some n → n.Tidy

/-! ## Sound dags are coherent -/

namespace Sound

variable {d : Dag} (h : d.Sound)
include h

/-- A child is there. -/
theorem child_lt {i v : Nat} {m : Node} (hm : d.get? i = some m) (hv : v ∈ m.children) :
    v < d.size := by
  refine Nat.lt_of_le_of_ne (h.child_le i m hm v hv) ?_
  rintro rfl
  obtain ⟨k, hk⟩ := Node.mem_children.mp hv
  exact List.not_mem_nil ((h.awaited_iff i m k hm).mp hk)

theorem exists_child_iff {p c : Nat} {k : Option Condition} :
    (∃ m, d.get? p = some m ∧ m.HasChild c k) ↔ ∃ n, d.get? c = some n ∧ n.HasParent p k := by
  constructor
  · rintro ⟨m, hm, hchild⟩
    obtain ⟨n, hn⟩ := get?_eq_some_iff.mpr (h.child_lt hm (Node.mem_children.mpr ⟨k, hchild⟩))
    exact ⟨n, hn, (h.edge_iff p c m n k hm hn).mp hchild⟩
  · rintro ⟨n, hn, hparent⟩
    have hlt : p < c := h.parent_lt c n hn p (Node.mem_parents.mpr ⟨k, hparent⟩)
    obtain ⟨m, hm⟩ := get?_eq_some_iff.mpr (Nat.lt_trans hlt (lt_size hn))
    exact ⟨m, hm, (h.edge_iff p c m n k hm hn).mpr hparent⟩

theorem lt_of_child {p c : Nat} (hc : d.Child p c) : p < c := by
  obtain ⟨m, hm, hmem⟩ := hc
  obtain ⟨k, hk⟩ := Node.mem_children.mp hmem
  obtain ⟨n, hn, hparent⟩ := h.exists_child_iff.mp ⟨m, hm, hk⟩
  exact h.parent_lt c n hn p (Node.mem_parents.mpr ⟨k, hparent⟩)

theorem lt_of_transGen {a b : Nat} (hab : Relation.TransGen d.Child a b) : a < b := by
  induction hab with
  | single hc => exact h.lt_of_child hc
  | tail _ hc ih => exact Nat.lt_trans ih (h.lt_of_child hc)

theorem coherent : d.Coherent where
  id_eq := h.id_eq
  parent_lt := h.parent_lt
  acyclic _ hcycle := Nat.lt_irrefl _ (h.lt_of_transGen hcycle)
  edge_iff _ _ _ := h.exists_child_iff
  children_nodup i n hn := (h.tidy i n hn).nodup
  parents_nodup := h.parents_nodup
  one_way _ _ hab hba := Nat.lt_asymm (h.lt_of_child hab) (h.lt_of_child hba)
  tidy := h.tidy

end Sound
end Dag

/-! ## Filling a dag -/

/-- Builds a node into a dag where it is. -/
def Builder.buildInPlace {k : Kind} (b : Builder k) : Dag.Change NodeId :=
  Dag.insertInPlace b.node.spec b.action

/-- A dag that builders have built into, some of them in vain. -/
inductive Dag.Filled : Dag → Prop
  | empty : Filled {}
  | build {k : Kind} {b : Builder k} {d : Dag} : Artifact.Reached (.builder k b) → Filled d →
      Filled (b.buildInPlace.leave d)

/-- A builder leaves behind what it has built, or the dag as it was. -/
theorem Builder.leave_buildInPlace {k : Kind} {b : Builder k} (hb : Artifact.Reached (.builder k b))
    (d : Dag) : b.buildInPlace.leave d = match b.build d with
      | .ok (_, d') => d'
      | .error _ => d := by
  have hnodup : (b.node.spec.links.map Link.parent).Nodup :=
    (NodeDraft.map_parent_links b.node).symm ▸ hb.sound
  rw [Dag.Change.leave, buildInPlace, Dag.insertInPlace_eq d hnodup, build]
  cases d.insert b.node.spec b.action <;> rfl

/-- Building in vain reaches nothing new. -/
theorem Dag.Filled.reached {d : Dag} (h : d.Filled) : Artifact.Reached (.dag d) := by
  induction h with
  | empty => exact .empty
  | @build k b d hb _ ih =>
    rw [Builder.leave_buildInPlace hb]
    cases hbuild : b.build d with
    | ok grown => exact .node hb ih hbuild
    | error e => exact ih

theorem Artifact.Reached.filled {d : Dag} (h : Artifact.Reached (.dag d)) : d.Filled := by
  generalize ha : Artifact.dag d = a at h
  induction h generalizing d with
  | empty =>
    cases ha
    exact .empty
  | @node k b d₀ d' id hb _ hbuild _ ih =>
    cases ha
    have hleave : b.buildInPlace.leave d₀ = d' := by rw [Builder.leave_buildInPlace hb, hbuild]
    exact hleave ▸ .build hb (ih rfl)
  | _ => cases ha

/-- A dag that builders have filled is coherent, and so is the dag of each workflow that is built
from it. -/
theorem Dag.Filled.arena_coherent {d : Dag} (h : d.Filled) :
    d.Coherent ∧ ∀ (draft : Workflow.Draft) (w : Workflow), draft.build d = .ok w →
      w.dag.Coherent := by
  have hsound : d.Sound := h.reached.sound
  refine ⟨hsound.coherent, fun draft w hw => ?_⟩
  exact (Workflow.Draft.sound_of_build hsound hw).dag.coherent

/-! ### A builder that fails late -/

def Dag.nightly : Dag :=
  match Script.nightly.dag with
  | .ok d => d
  | .error _ => {}

theorem Dag.nightly_filled : nightly.Filled :=
  Artifact.Reached.filled (Script.reached_foldlM_grow (s := .nightly) .empty rfl)

/-- A node that the first of its parents would take, and the second would not. -/
def Builder.torn : Builder (.custom "none") where
  node := { name := ⟨some "torn", true⟩, plainParents := [0, 3] }
  draft := Kind.draft (.custom "none")

theorem Builder.torn_reached : Artifact.Reached (.builder (.custom "none") torn) := by
  have hmade : (Script.plainNode "torn" [(0, none), (3, none)]).2.foldlM Builder.apply
      (.new (.custom "none")) = .ok torn := rfl
  exact Script.reached_foldlM_apply (.new _) hmade

/-- The dag after a build in vain, and a workflow of it. -/
theorem Dag.nightly_coherent :
    Builder.torn.buildInPlace nightly =
      .error (.mixedChildren "merge" .plain .conditional) nightly ∧
    (Builder.torn.buildInPlace.leave nightly).Filled ∧
    (Builder.torn.buildInPlace.leave nightly).Coherent ∧ Workflow.nightly.dag.Coherent := by
  have hfilled := Filled.build Builder.torn_reached nightly_filled
  obtain ⟨hdag, hworkflow⟩ := hfilled.arena_coherent
  exact ⟨rfl, hfilled, hdag,
    hworkflow { name := .ofDefault "nightly", entries := [0] } .nightly rfl⟩

end BatchFlow

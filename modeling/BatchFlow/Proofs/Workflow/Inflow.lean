import BatchFlow.Proofs.Outline.Walk
import BatchFlow.Proofs.Workflow.Coherent

/-!
# Edges by the node that they enter

A node declares the edges that enter it when it is made, and they stay the same while more nodes are
added. So the edges of a dag are told by the node that they enter: each comes from another node, or
from the source if the node is a root. In a sound dag this says what leaves each place, too.
-/

namespace BatchFlow

/-- Edges by the node that they enter: where an edge comes from, and under which condition. -/
abbrev Inflow := Place → Option Condition → Nat → Prop

namespace Inflow

/-- The edges into the node are these. -/
def Only (enters : Inflow) (v : Nat) (ins : List (Place × Option Condition)) : Prop :=
  ins ≠ [] ∧ ∀ b c, enters b c v ↔ (b, c) ∈ ins

/-- Edges go from smaller to greater ids. -/
def Forward (enters : Inflow) : Prop := ∀ b c v, enters b c v → b.rank ≤ v

variable {enters enters' : Inflow} {v : Nat}

namespace Only

variable {a b : Place} {c k : Option Condition}

theorem eq_of_enters (h : enters.Only v [(a, k)]) (hb : enters b c v) : b = a ∧ c = k := by
  simpa using (h.2 b c).mp hb

theorem enters_self (h : enters.Only v [(a, k)]) : enters a k v :=
  (h.2 a k).mpr (List.mem_singleton_self _)

theorem mono {ins : List (Place × Option Condition)}
    (hsame : ∀ b c v, enters b c v → ∀ b' c', enters' b' c' v ↔ enters b' c' v)
    (h : enters.Only v ins) : enters'.Only v ins := by
  obtain ⟨⟨b, c⟩, hbc⟩ := List.exists_mem_of_ne_nil ins h.1
  have hv := hsame b c v ((h.2 b c).mpr hbc)
  exact ⟨h.1, fun b' c' => (hv b' c').trans (h.2 b' c')⟩

end Only
end Inflow

/-- An edge from the place enters the node. One from the source enters each root. -/
def Node.Follows (n : Node) : Place → Option Condition → Prop
  | .source, c => c = none ∧ n.parents = []
  | .node u, c => n.HasParent u c

theorem Node.follows_congr {n m : Node} (hplain : n.plainParents = m.plainParents)
    (hcond : n.conditionalParents = m.conditionalParents) {b : Place} {c : Option Condition} :
    n.Follows b c ↔ m.Follows b c := by
  cases b with
  | source => rw [Follows, Follows, parents, parents, hplain, hcond]
  | node u => cases c <;> simp only [Follows, HasParent, hplain, hcond]

/-- The edges of a dag, and one from the source into each root. -/
def Dag.Enters (d : Dag) : Inflow := fun b c v => ∃ n, d.get? v = some n ∧ n.Follows b c

namespace Dag

variable {d : Dag} {b : Place} {c : Option Condition} {u v : Nat}

theorem Enters.lt_size (h : d.Enters b c v) : v < d.size :=
  get?_eq_some_iff.mp (h.imp fun _ => And.left)

theorem enters_iff {n : Node} (hn : d.get? v = some n) : d.Enters b c v ↔ n.Follows b c := by
  refine ⟨fun ⟨m, hm, h⟩ => ?_, fun h => ⟨n, hn, h⟩⟩
  rwa [Option.some.inj (hn.symm.trans hm)]

theorem Sound.enters_forward (h : d.Sound) : Inflow.Forward d.Enters := by
  intro b c v hb
  obtain ⟨n, hn, hb⟩ := hb
  cases b with
  | source => exact Nat.zero_le v
  | node u => exact h.parent_lt v n hn u (Node.mem_parents.mpr ⟨c, hb⟩)

/-- The edges of a dag, by the node that they leave. -/
theorem Sound.enters_node_iff (h : d.Sound) :
    d.Enters (.node u) c v ↔ ∃ m, d.get? u = some m ∧ m.HasChild v c :=
  h.exists_child_iff.symm

end Dag

namespace Workflow.Sound

variable {w : Workflow} (hw : w.Sound) {a : Place} {u v : Nat}
include hw

theorem mem_plain_iff : v ∈ w.plain a ↔ w.dag.Enters a none v := by
  cases a with
  | source => exact hw.mem_roots_iff.trans (by simp [Dag.Enters, Node.Follows, node?])
  | node u =>
    rw [hw.dag.enters_node_iff, plain]
    cases hu : w.node? u with
    | none => simp [show w.dag.get? u = none from hu]
    | some m => simp [show w.dag.get? u = some m from hu, Node.HasChild]

theorem mem_choices_iff {c : Condition} :
    (⟨v, c⟩ : Branch) ∈ w.choices a ↔ w.dag.Enters a (some c) v := by
  cases a with
  | source => simp [choices, Dag.Enters, Node.Follows]
  | node u =>
    rw [hw.dag.enters_node_iff, choices]
    cases hu : w.node? u with
    | none => simp [show w.dag.get? u = none from hu]
    | some m => simp [show w.dag.get? u = some m from hu, Node.HasChild]

theorem mem_next_iff : v ∈ w.next a ↔ ∃ c, w.dag.Enters a c v := by
  rw [next_eq, List.mem_append, hw.mem_plain_iff, List.mem_map]
  constructor
  · rintro (h | ⟨b, hb, rfl⟩)
    · exact ⟨none, h⟩
    · exact ⟨some b.condition, hw.mem_choices_iff.mp hb⟩
  · rintro ⟨_ | c, h⟩
    · exact .inl h
    · exact .inr ⟨⟨v, c⟩, hw.mem_choices_iff.mpr h, rfl⟩

theorem choices_eq_nil (hplain : ∀ c v, w.dag.Enters a c v → c = none) : w.choices a = [] := by
  refine List.eq_nil_iff_forall_not_mem.mpr fun b hb => ?_
  cases hplain _ _ (hw.mem_choices_iff.mp hb)

/-- A node without conditional children needs no default. -/
theorem not_lacksDefault_of_plain (hplain : ∀ c v, w.dag.Enters (.node u) c v → c = none) :
    ¬ w.LacksDefault u := by
  rintro ⟨n, hn, hcond, -⟩
  exact hcond (choices_node hn ▸ hw.choices_eq_nil hplain)

theorem not_lacksDefault_of_default (hdefault : w.dag.Enters (.node u) (some .otherwise) v) :
    ¬ w.LacksDefault u := by
  rintro ⟨n, hn, -, hnone⟩
  have hb := hw.mem_choices_iff.mpr hdefault
  rw [choices_node hn] at hb
  have hzero := List.countP_eq_zero.mp (Node.defaultChild?_eq_none_iff.mp hnone)
  exact hzero _ hb rfl

/-- A node with one way in is not crossed. -/
theorem not_crossedAt_of_only {k : Option Condition} (h : Inflow.Only w.dag.Enters v [(a, k)]) :
    ¬ w.CrossedAt v := by
  rintro ⟨hv, ⟨p, q, hpq, hp, hq⟩, -⟩
  obtain ⟨c, hc⟩ := hw.mem_next_iff.mp (mem_next_of_flow hp hv)
  obtain ⟨c', hc'⟩ := hw.mem_next_iff.mp (mem_next_of_flow hq hv)
  exact hpq ((h.eq_of_enters hc).1.trans (h.eq_of_enters hc').1.symm)

end Workflow.Sound
end BatchFlow

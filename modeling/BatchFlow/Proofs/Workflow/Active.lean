import BatchFlow.Proofs.Outline.Traces

/-!
# What runs under a resolution

A resolution picks a child for each node with conditional children. The active nodes are those that
run then: the roots, all plain children of an active node, and the picked child of an active node.
From an active node one can go on along active nodes to the end, so all that every way to the end
passes is active.
-/

namespace BatchFlow
namespace Workflow

/-- The nodes that run when each node with conditional children goes on to its picked child. -/
inductive Active (w : Workflow) (pick : NodeId → NodeId) : NodeId → Prop
  | root {id : NodeId} : id ∈ w.roots → Active w pick id
  | plain {u v : NodeId} {n : Node} : Active w pick u → w.node? u = some n →
      v ∈ n.plainChildren → Active w pick v
  | picked {u : NodeId} {n : Node} : Active w pick u → w.node? u = some n →
      n.conditionalChildren ≠ [] → Active w pick (pick u)

/-- What is picked for a node with conditional children is one of them. -/
def Picks (w : Workflow) (pick : NodeId → NodeId) : Prop :=
  ∀ u n, w.node? u = some n → n.conditionalChildren ≠ [] →
    pick u ∈ n.conditionalChildren.map Branch.node

/-- Where one goes on from a place. -/
inductive Onward (w : Workflow) (pick : NodeId → NodeId) : Place → NodeId → Prop
  | plain {a : Place} {v : NodeId} : v ∈ w.plain a → Onward w pick a v
  | picked {id : Nat} : w.choices (.node id) ≠ [] → Onward w pick (.node id) (pick id)

/-- The source counts as active. -/
def ActiveAt (w : Workflow) (pick : NodeId → NodeId) : Place → Prop
  | .source => True
  | .node id => w.Active pick id

variable {w : Workflow} {pick : NodeId → NodeId}

theorem exists_node_of_plain {id : Nat} {v : NodeId} (h : v ∈ w.plain (.node id)) :
    ∃ n, w.node? id = some n ∧ v ∈ n.plainChildren := by
  cases hn : w.node? id with
  | none => simp [plain, hn] at h
  | some n => exact ⟨n, rfl, plain_node hn ▸ h⟩

theorem exists_node_of_choices {id : Nat} (h : w.choices (.node id) ≠ []) :
    ∃ n, w.node? id = some n ∧ n.conditionalChildren ≠ [] := by
  cases hn : w.node? id with
  | none => simp [choices, hn] at h
  | some n => exact ⟨n, rfl, choices_node hn ▸ h⟩

theorem Onward.active {a : Place} {v : NodeId} (h : w.Onward pick a v)
    (ha : w.ActiveAt pick a) : w.Active pick v := by
  cases h with
  | plain hv =>
    cases a with
    | source => exact .root hv
    | node id =>
      obtain ⟨n, hn, hv⟩ := exists_node_of_plain hv
      exact .plain ha hn hv
  | picked hc =>
    obtain ⟨n, hn, hc⟩ := exists_node_of_choices hc
    exact .picked ha hn hc

theorem Picks.exists_branch (hp : w.Picks pick) {id : Nat} (h : w.choices (.node id) ≠ []) :
    ∃ b ∈ w.choices (.node id), b.node = pick id := by
  obtain ⟨n, hn, hc⟩ := exists_node_of_choices h
  rw [choices_node hn]
  exact List.mem_map.mp (hp id n hn hc)

/-- One of the branches of a place with conditional ways out is picked. -/
theorem Picks.exists_index (hp : w.Picks pick) {a : Place} (h : w.choices a ≠ []) :
    ∃ (i : Nat) (head : NodeId × Option Condition), (w.branches a)[i]? = some head ∧
      w.Onward pick a head.1 := by
  cases a with
  | source => exact absurd rfl h
  | node id =>
    obtain ⟨b, hb, hpick⟩ := hp.exists_branch h
    obtain ⟨i, hi⟩ := List.mem_iff_getElem?.mp hb
    refine ⟨i, (b.node, some b.condition), ?_, ?_⟩
    · rw [branches, if_neg h, List.getElem?_map, hi]
      rfl
    · show w.Onward pick (.node id) b.node
      rw [hpick]
      exact .picked h

theorem Onward.mem_next (hp : w.Picks pick) {a : Place} {v : NodeId} (h : w.Onward pick a v) :
    v ∈ w.next a := by
  rw [next_eq, List.mem_append]
  cases h with
  | plain hv => exact .inl hv
  | picked hc =>
    obtain ⟨b, hb, hv⟩ := hp.exists_branch hc
    exact .inr (List.mem_map.mpr ⟨b, hb, hv⟩)

theorem exists_onward {a : Place} (h : w.next a ≠ []) : ∃ v, w.Onward pick a v := by
  rw [next_eq] at h
  cases hplain : w.plain a with
  | cons v rest => exact ⟨v, .plain (hplain ▸ List.mem_cons_self)⟩
  | nil =>
    rw [hplain, List.nil_append] at h
    cases a with
    | source => exact absurd rfl h
    | node id => exact ⟨pick id, .picked fun hnil => h (by rw [hnil, List.map_nil])⟩

/-- The nodes that are active are those that one gets to by going on. -/
theorem Active.closed {P : NodeId → Prop} (hroot : ∀ v, w.Onward pick .source v → P v)
    (hstep : ∀ u v, P u → w.Onward pick (.node u) v → P v) {u : NodeId} (h : w.Active pick u) :
    P u := by
  induction h with
  | root h => exact hroot _ (.plain h)
  | plain _ hn hv ih => exact hstep _ _ ih (.plain ((plain_node hn).symm ▸ hv))
  | picked _ hn hc ih => exact hstep _ _ ih (.picked ((choices_node hn).symm ▸ hc))

namespace Sound

variable (hw : w.Sound) (hp : w.Picks pick)
include hw hp

/-- What every way from an active place to the end passes is active. -/
theorem active_of_through {a : Place} {x : Nat} (ha : a.rank ≤ w.size) (hx : x < w.size)
    (hactive : w.ActiveAt pick a) (h : Through w.Flow (.node x) a w.sink) : w.Active pick x := by
  obtain ⟨k, hk⟩ : ∃ k, k = w.size - a.rank := ⟨_, rfl⟩
  induction k using Nat.strong_induction_on generalizing a with
  | _ k ih =>
    rcases (through_sink_iff ha).mp h with heq | ⟨hleaf, hnext⟩
    · rw [← heq] at hactive
      exact hactive
    -- Before the sink one can always go on, and every way on passes `x`, too.
    · have hsome : w.next a ≠ [] := fun hnil => Nat.ne_of_lt hx (hleaf hnil)
      obtain ⟨v, hv⟩ := exists_onward hsome
      have hmem := hv.mem_next hp
      have hlt := hw.of_mem_next hmem
      have hrank : (Place.node v).rank = v + 1 := rfl
      have hsize : (Place.node v).rank ≤ w.size := hlt.2
      exact ih (w.size - (Place.node v).rank) (by omega) hsize (hv.active hactive)
        (hnext v hmem) rfl

theorem active_mergeOf {a : Place} (ha : a.rank ≤ w.size) (hactive : w.ActiveAt pick a)
    (hm : w.mergeOf a < w.size) : w.Active pick (w.mergeOf a) :=
  hw.active_of_through hp ha hm hactive (hw.immediatePostDominator_mergeOf ha).passed

end Sound
end Workflow
end BatchFlow

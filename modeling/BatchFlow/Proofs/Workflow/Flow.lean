import BatchFlow.Proofs.Paths
import BatchFlow.Proofs.Workflow.Order

/-!
# The flow of a workflow

The edges of a workflow with a source before all roots and a sink after all leaves. Every node lies
on a path from the source to the sink, and a rank grows along the flow, so the theory of paths and
dominators applies.
-/

namespace BatchFlow

/-- A place in the flow of a workflow. The sink is written as the id one past the last node. -/
inductive Place where
  | source
  | node (id : Nat)
  deriving DecidableEq

/-- The source comes first, then the nodes in arena order. -/
def Place.rank : Place → Nat
  | source => 0
  | node id => id + 1

namespace Workflow

/-- The nodes that come right after a place. -/
def next (w : Workflow) : Place → List NodeId
  | .source => w.roots
  | .node id => w.childrenOf id

def sink (w : Workflow) : Place := .node w.size

/-- The edges of a workflow, those out of the source and those into the sink included. -/
inductive Flow (w : Workflow) : Place → Place → Prop
  | edge {a : Place} {v : Nat} : v ∈ w.next a → Flow w a (.node v)
  | leaf {a : Place} : a.rank ≤ w.size → w.next a = [] → Flow w a w.sink

theorem mem_next_of_flow {w : Workflow} {a : Place} {v : Nat} (h : w.Flow a (.node v))
    (hv : v < w.size) : v ∈ w.next a := by
  generalize hb : Place.node v = b at h
  cases h with
  | edge h =>
    cases hb
    exact h
  | leaf _ _ =>
    cases hb
    exact absurd hv (Nat.lt_irrefl _)

namespace Sound

variable {w : Workflow} (hw : w.Sound)
include hw

theorem of_mem_next {a : Place} {v : Nat} (h : v ∈ w.next a) : a.rank < v + 1 ∧ v < w.size := by
  cases a with
  | source =>
    obtain ⟨n, hn, -⟩ := hw.mem_roots_iff.mp h
    exact ⟨Nat.succ_pos v, Dag.lt_size hn⟩
  | node u =>
    have := hw.lt_of_mem_childrenOf h
    exact ⟨Nat.succ_lt_succ this.1, this.2⟩

theorem next_nodup (a : Place) : (w.next a).Nodup := by
  cases a with
  | source => exact hw.roots_nodup
  | node u => exact hw.childrenOf_nodup u

theorem ranked : Ranked w.Flow Place.rank := by
  intro a b h
  cases h with
  | edge h => exact (hw.of_mem_next h).1
  | leaf h _ => exact Nat.lt_succ_of_le h

theorem leads_sink {a : Place} (ha : a.rank ≤ w.size + 1) : Leads w.Flow a w.sink := by
  obtain ⟨k, hk⟩ : ∃ k, k = w.size + 1 - a.rank := ⟨_, rfl⟩
  induction k using Nat.strong_induction_on generalizing a with
  | _ k ih =>
    by_cases hs : a.rank ≤ w.size
    · cases hnext : w.next a with
      | nil => exact .single (.leaf hs hnext)
      | cons v _ =>
        have hv : v ∈ w.next a := hnext ▸ List.mem_cons_self
        have hlt := hw.of_mem_next hv
        have hrank : (Place.node v).rank = v + 1 := rfl
        exact .head (.edge hv) (ih (w.size + 1 - (Place.node v).rank) (by omega) (by omega) rfl)
    · cases a with
      | source => exact absurd (Nat.zero_le _) hs
      | node u =>
        have hrank : (Place.node u).rank = u + 1 := rfl
        have hu : u = w.size := by omega
        exact hu ▸ .refl

theorem flow_node_iff {a : Place} {v : Nat} {n : Node} (hn : w.node? v = some n) :
    w.Flow a (.node v) ↔ (a = .source ∧ n.parents = []) ∨ ∃ u ∈ n.parents, a = .node u := by
  have hv : v < w.size := Dag.lt_size hn
  have hone : ∀ m, w.node? v = some m → m = n := fun m hm => Option.some.inj (hm.symm.trans hn)
  have hflow : w.Flow a (.node v) ↔ v ∈ w.next a := ⟨fun h => mem_next_of_flow h hv, .edge⟩
  rw [hflow]
  cases a with
  | source =>
    refine hw.mem_roots_iff.trans ⟨fun ⟨m, hm, hp⟩ => .inl ⟨rfl, hone m hm ▸ hp⟩, ?_⟩
    rintro (⟨-, hp⟩ | ⟨u, -, hu⟩)
    · exact ⟨n, hn, hp⟩
    · cases hu
  | node u =>
    refine hw.mem_childrenOf_iff.trans ⟨fun ⟨m, hm, hp⟩ => .inr ⟨u, hone m hm ▸ hp, rfl⟩, ?_⟩
    rintro (⟨hu, -⟩ | ⟨u', hu', hu⟩)
    · cases hu
    · cases hu
      exact ⟨n, hn, hu'⟩

theorem source_leads {v : Nat} (hv : v ≤ w.size) : Leads w.Flow .source (.node v) := by
  rcases Nat.lt_or_eq_of_le hv with hv | rfl
  · induction v using Nat.strong_induction_on with
    | _ v ih =>
      obtain ⟨n, hn⟩ := Dag.get?_eq_some_iff.mpr hv
      cases hp : n.parents with
      | nil => exact .single ((hw.flow_node_iff hn).mpr (.inl ⟨rfl, hp⟩))
      | cons u _ =>
        have hu : u ∈ n.parents := hp ▸ List.mem_cons_self
        have hlt : u < v := hw.dag.parent_lt v n hn u hu
        exact (ih u hlt (Nat.le_of_lt (Nat.lt_trans hlt hv)) (Nat.lt_trans hlt hv)).tail
          ((hw.flow_node_iff hn).mpr (.inr ⟨u, hu, rfl⟩))
  · exact hw.leads_sink (Nat.zero_le _)

theorem rank_le_of_leads {a b : Place} (h : Leads w.Flow a b) (hne : a ≠ b) :
    b.rank ≤ w.size + 1 := by
  obtain ⟨y, -, e⟩ := h.exists_last_edge hne
  cases e with
  | edge hv => exact Nat.le_succ_of_le (hw.of_mem_next hv).2
  | leaf _ _ => exact Nat.le_refl _

theorem two_parents_iff {v : Nat} {n : Node} (hn : w.node? v = some n) :
    (∃ p q, p ≠ q ∧ w.Flow p (.node v) ∧ w.Flow q (.node v)) ↔ 2 ≤ n.parents.length := by
  simp only [hw.flow_node_iff hn]
  have hnodup := hw.dag.parents_nodup v n hn
  constructor
  · rintro ⟨p, q, hpq, ⟨rfl, hp⟩ | ⟨x, hx, rfl⟩, ⟨rfl, hq⟩ | ⟨y, hy, rfl⟩⟩
    · exact absurd rfl hpq
    · simp [hp] at hy
    · simp [hq] at hx
    · match hl : n.parents with
      | [] => simp [hl] at hx
      | [z] =>
        rw [hl, List.mem_singleton] at hx hy
        exact absurd (by rw [hx, hy]) hpq
      | _ :: _ :: _ => simp
  · intro h
    match hl : n.parents with
    | [] => simp [hl] at h
    | [_] => simp [hl] at h
    | x :: y :: rest =>
      rw [hl, List.nodup_cons] at hnodup
      have hxy : x ≠ y := fun he => hnodup.1 (he ▸ List.mem_cons_self)
      exact ⟨.node x, .node y, fun he => hxy (Place.node.inj he), .inr ⟨x, by simp, rfl⟩,
        .inr ⟨y, by simp, rfl⟩⟩

end Sound
end Workflow
end BatchFlow

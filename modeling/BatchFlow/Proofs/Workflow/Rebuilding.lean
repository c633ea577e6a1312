import BatchFlow.Proofs.Builder.Copying
import BatchFlow.Proofs.Dag.Insertion

/-!
# Dags that are rebuilt

A workflow holds a copy of nodes under new ids, and the copy can be taken up as a dag and filled
further. This leads to nothing new. Every sound dag is what comes about when its nodes are built
one after the other, because a node lists its children in the order in which they were built. So
the dags that builders fill are the sound ones, and the dag of a workflow is one of them.
-/

namespace BatchFlow

/-! ## A builder for any node -/

namespace NodeDraft

theorem withParents_plain (d : NodeDraft) (ids : List NodeId) :
    d.withParents (ids.map (⟨·, none⟩)) = { d with plainParents := d.plainParents ++ ids } := by
  induction ids generalizing d with
  | nil => simp [withParents]
  | cons id rest ih =>
    rw [List.map_cons, withParents, List.foldl_cons]
    exact (ih _).trans (by simp [withParent])

theorem withParents_conditional (d : NodeDraft) (bs : List Branch) :
    d.withParents (bs.map fun b => ⟨b.node, some b.condition⟩) =
      { d with conditionalParents := d.conditionalParents ++ bs } := by
  induction bs generalizing d with
  | nil => simp [withParents]
  | cons b rest ih =>
    rw [List.map_cons, withParents, List.foldl_cons]
    exact (ih _).trans (by simp [withParent])

theorem withParents_links (d : NodeDraft) (s : NodeSpec) : d.withParents s.links =
    { d with plainParents := d.plainParents ++ s.plainParents
             conditionalParents := d.conditionalParents ++ s.conditionalParents } := by
  rw [NodeSpec.links, withParents, List.foldl_append]
  exact (withParents_conditional ..).trans (by rw [← withParents, withParents_plain])

end NodeDraft

namespace Builder

/-- Some builder makes just this node. -/
theorem exists_reached (n : Node) (hnodup : n.parents.Nodup) :
    ∃ (k : Kind) (b : Builder k), Artifact.Reached (.builder k b) ∧
      b.node.spec = (NodeDraft.ofNode n).spec ∧ b.action = n.action := by
  let named : NodeDraft := { name := ⟨some n.name, true⟩ }
  let handled : NodeDraft := { named with handler := ⟨n.handler, n.handler.isSome⟩ }
  have hnamed : Artifact.Reached (.builder n.action.kind
      { node := named, draft := n.action.kind.draftOf n.action.settings }) :=
    (Artifact.Reached.settings n.action.kind n.action.settings).edit (e := .node (.name n.name)) rfl
  have hhandled : Artifact.Reached (.builder n.action.kind
      { node := handled, draft := n.action.kind.draftOf n.action.settings }) := by
    cases hh : n.handler with
    | none => simpa [handled, hh] using hnamed
    | some h =>
      refine hnamed.edit (e := .node (.handler h)) ?_
      simp only [handled, hh]
      rfl
  have hlinks : ((NodeDraft.ofNode n).spec.links.map Link.parent).Nodup := by
    rw [NodeDraft.map_parent_links]
    exact hnodup
  have hedits := foldlM_parents (NodeDraft.ofNode n).spec.links (b :=
    { node := handled, draft := n.action.kind.draftOf n.action.settings }) hlinks
  refine ⟨n.action.kind, _, Script.reached_foldlM_apply hhandled hedits, ?_, action_draftOf ..⟩
  rw [NodeDraft.withParents_links]
  rfl

end Builder

/-! ## The first nodes of a dag -/

/-- In increasing order an item stands right behind those with smaller keys. -/
theorem filter_lt_succ {α : Type} (key : α → Nat) {items : List α} {b : α}
    (hsorted : (items.map key).Pairwise (· < ·)) (hb : b ∈ items) :
    items.filter (key · < key b + 1) = items.filter (key · < key b) ++ [b] := by
  obtain ⟨before, after, rfl⟩ := List.append_of_mem hb
  rw [List.map_append, List.map_cons, List.pairwise_append, List.pairwise_cons] at hsorted
  obtain ⟨-, ⟨hafter, -⟩, hbefore⟩ := hsorted
  have hlt : ∀ a ∈ before, key a < key b := fun a ha =>
    hbefore _ (List.mem_map_of_mem ha) _ List.mem_cons_self
  have hgt : ∀ a ∈ after, key b < key a := fun a ha => hafter _ (List.mem_map_of_mem ha)
  have hleft : before.filter (key · < key b + 1) = before.filter (key · < key b) :=
    List.filter_congr fun a ha => by simp [hlt a ha, Nat.lt_succ_of_lt (hlt a ha)]
  have hnone : ∀ m, m ≤ key b + 1 → after.filter (key · < m) = [] := fun m hm =>
    List.filter_eq_nil_iff.mpr fun a ha => by simpa using Nat.le_trans hm (hgt a ha)
  rw [List.filter_append, List.filter_append, hleft, List.filter_cons_of_pos (by simp),
    List.filter_cons_of_neg (by simp), hnone _ (Nat.le_succ _), hnone _ (Nat.le_refl _),
    List.append_nil]

namespace Node

/-- The node as it was when there were so many nodes: without the children that came later. -/
def upTo (n : Node) (v : NodeId) : Node :=
  { n with
    plainChildren := n.plainChildren.filter (· < v)
    conditionalChildren := n.conditionalChildren.filter (·.node < v) }

variable {n : Node} {v : NodeId} {c : Option Condition}

theorem upTo_congr {u : NodeId} (h : ∀ x ∈ n.children, x < u ↔ x < v) : n.upTo u = n.upTo v := by
  have hplain : n.plainChildren.filter (· < u) = n.plainChildren.filter (· < v) :=
    List.filter_congr fun x hx => by simp [h x (List.mem_append_left _ hx)]
  have hconditional : n.conditionalChildren.filter (·.node < u) =
      n.conditionalChildren.filter (·.node < v) := List.filter_congr fun b hb => by
    simp [h b.node (List.mem_append_right _ (List.mem_map_of_mem hb))]
  rw [upTo, upTo, hplain, hconditional]

theorem upTo_eq_self (h : ∀ x ∈ n.children, x < v) : n.upTo v = n := by
  have hplain : n.plainChildren.filter (· < v) = n.plainChildren :=
    List.filter_eq_self.mpr fun x hx => by simpa using h x (List.mem_append_left _ hx)
  have hconditional : n.conditionalChildren.filter (·.node < v) = n.conditionalChildren :=
    List.filter_eq_self.mpr fun b hb => by
      simpa using h b.node (List.mem_append_right _ (List.mem_map_of_mem hb))
  rw [upTo, hplain, hconditional]

theorem upTo_succ_of_hasChild (h : n.Tidy) (hc : n.HasChild v c) :
    n.upTo (v + 1) = (n.upTo v).withChild v c := by
  cases c with
  | none =>
    have hnone : n.conditionalChildren = [] := h.unmixed.resolve_left (List.ne_nil_of_mem hc)
    have hsorted : (n.plainChildren.map fun x => x).Pairwise (· < ·) := by
      rw [List.map_id']
      exact h.plain_sorted
    have hlast : n.plainChildren.filter (· < v + 1) = n.plainChildren.filter (· < v) ++ [v] :=
      filter_lt_succ (fun x => x) hsorted hc
    rw [upTo, upTo, hnone, hlast]
    rfl
  | some c =>
    have hnone : n.plainChildren = [] := h.unmixed.resolve_right (List.ne_nil_of_mem hc)
    have hlast := filter_lt_succ Branch.node h.conditional_sorted hc
    rw [upTo, upTo, hnone, hlast]
    rfl

/-- There was room for the child when it came. -/
theorem takesChild_upTo (h : n.Tidy) (hc : n.HasChild v c) : (n.upTo v).TakesChild c := by
  cases c with
  | none =>
    have hnone : n.conditionalChildren = [] := h.unmixed.resolve_left (List.ne_nil_of_mem hc)
    simp [TakesChild, upTo, hnone]
  | some c =>
    have hnone : n.plainChildren = [] := h.unmixed.resolve_right (List.ne_nil_of_mem hc)
    refine ⟨by simp [upTo, hnone], ?_⟩
    rintro ⟨rfl, b, hb, hdefault⟩
    -- Two of the children would be the default.
    have hone : (n.conditionalChildren.filter (·.node < v + 1)).countP (·.condition.isDefault) ≤ 1 :=
      Nat.le_trans List.filter_sublist.countP_le h.one_default
    have hpos : 0 < (n.conditionalChildren.filter (·.node < v)).countP (·.condition.isDefault) :=
      List.countP_pos_iff.mpr ⟨b, hb, by rw [hdefault]; rfl⟩
    rw [filter_lt_succ Branch.node h.conditional_sorted hc, List.countP_append] at hone
    exact absurd (Nat.le_of_succ_le_succ hone) (Nat.not_le.mpr hpos)

theorem mem_links_iff {p : NodeId} :
    ⟨p, c⟩ ∈ (NodeDraft.ofNode n).spec.links ↔ n.HasParent p c := by
  rw [← @Dag.appended_hasParent {} (NodeDraft.ofNode n).spec n.name n.action p c]
  cases c <;> exact Iff.rfl

end Node

namespace Dag

/-- The first nodes of a dag, as they were when there were no others. -/
def upTo (d : Dag) (v : Nat) : Dag := ⟨(d.nodes.take v).map (Node.upTo · v)⟩

variable {d : Dag} {v : Nat}

theorem get?_upTo (i : Nat) :
    (d.upTo v).get? i = if i < v then (d.get? i).map (Node.upTo · v) else none := by
  simp only [upTo, get?, List.getElem?_map, List.getElem?_take]
  split <;> rfl

theorem get?_upTo_of_lt {i : Nat} {m : Node} (hi : i < v) (hm : d.get? i = some m) :
    (d.upTo v).get? i = some (m.upTo v) := by
  rw [get?_upTo, if_pos hi, hm, Option.map_some]

theorem size_upTo (hv : v ≤ d.size) : (d.upTo v).size = v := by
  rw [upTo, size, List.length_map, List.length_take]
  exact Nat.min_eq_left hv

theorem upTo_size (h : d.Sound) : d.upTo d.size = d := by
  refine congrArg Dag.mk (List.ext_getElem? fun i => ?_)
  show (d.upTo d.size).get? i = d.get? i
  rw [get?_upTo]
  cases hi : d.get? i with
  | none => simp
  | some m =>
    rw [if_pos (lt_size hi), Option.map_some, Node.upTo_eq_self fun x hx => h.child_lt hi hx]

/-! ## Building the next node -/

section next

variable (h : d.Sound) {n : Node} (hn : d.get? v = some n)
include h hn

theorem admits_upTo : (d.upTo v).Admits (NodeDraft.ofNode n).spec := by
  refine ⟨Option.some_ne_none n.name, ?_⟩
  rintro ⟨p, c⟩ hl
  have hparent := Node.mem_links_iff.mp hl
  obtain ⟨m, hm, hchild⟩ := h.exists_child_iff.mpr ⟨n, hn, hparent⟩
  have hlt : p < v := h.parent_lt v n hn p (Node.mem_parents.mpr ⟨c, hparent⟩)
  exact ⟨m.upTo v, get?_upTo_of_lt hlt hm, Node.takesChild_upTo (h.tidy p m hm) hchild⟩

theorem upTo_succ_of_hasParent {p : Nat} {m : Node} {c : Option Condition}
    (hm : d.get? p = some m) (hp : n.HasParent p c) :
    m.upTo (v + 1) = (m.upTo v).withChild v c :=
  Node.upTo_succ_of_hasChild (h.tidy p m hm) ((h.edge_iff p v m n c hm hn).mpr hp)

theorem upTo_succ_of_not_mem {i : Nat} {m : Node} (hm : d.get? i = some m) (hi : i ∉ n.parents) :
    m.upTo (v + 1) = m.upTo v := by
  have hnone : v ∉ m.children := by
    intro hmem
    obtain ⟨c, hchild⟩ := Node.mem_children.mp hmem
    exact hi (Node.mem_parents.mpr ⟨c, (h.edge_iff i v m n c hm hn).mp hchild⟩)
  refine Node.upTo_congr fun x hx => ⟨fun hlt => ?_, Nat.lt_succ_of_lt⟩
  exact Nat.lt_of_le_of_ne (Nat.le_of_lt_succ hlt) fun heq => hnone (heq ▸ hx)

/-- The children of a node come after it. -/
theorem upTo_succ_self :
    n.upTo (v + 1) = { n with plainChildren := [], conditionalChildren := [] } := by
  have hlater : ∀ x ∈ n.children, v < x := fun x hx => h.lt_of_child ⟨n, hn, hx⟩
  have hnone : n.upTo (v + 1) = n.upTo 0 := Node.upTo_congr fun x hx =>
    iff_of_false (Nat.not_lt.mpr (hlater x hx)) (Nat.not_lt_zero x)
  rw [hnone]
  simp [Node.upTo]

end next

theorem Grows.parent {n : Node} {d' : Dag} {action : Action}
    (h : d.Grows (NodeDraft.ofNode n).spec action d') {p : NodeId} {c : Option Condition}
    (hp : n.HasParent p c) :
    ∃ m, d.get? p = some m ∧ d'.get? p = some (m.withChild d.size c) := by
  cases c with
  | none => exact h.plain p hp
  | some c => exact h.conditional ⟨p, c⟩ hp

theorem eq_of_grows {d' : Dag} (h : d.Sound) {n : Node} (hn : d.get? v = some n)
    (hgrows : (d.upTo v).Grows (NodeDraft.ofNode n).spec n.action d') : d' = d.upTo (v + 1) := by
  have hsize : (d.upTo v).size = v := size_upTo (Nat.le_of_lt (lt_size hn))
  refine congrArg Dag.mk (List.ext_getElem? fun i => ?_)
  show d'.get? i = (d.upTo (v + 1)).get? i
  rcases Nat.lt_trichotomy i v with hlt | rfl | hgt
  · obtain ⟨m, hm⟩ := get?_eq_some_iff.mpr (Nat.lt_trans hlt (lt_size hn))
    have hbefore : (d.upTo v).get? i = some (m.upTo v) := get?_upTo_of_lt hlt hm
    rw [get?_upTo_of_lt (Nat.lt_succ_of_lt hlt) hm]
    by_cases hparent : i ∈ n.parents
    · obtain ⟨c, hparent⟩ := Node.mem_parents.mp hparent
      obtain ⟨m₀, hm₀, hafter⟩ := hgrows.parent hparent
      obtain rfl := Option.some.inj (hbefore.symm.trans hm₀)
      rw [hafter, hsize, upTo_succ_of_hasParent h hn hm hparent]
    · rw [upTo_succ_of_not_mem h hn hm hparent, ← hbefore]
      rw [Node.parents, List.mem_append, not_or] at hparent
      exact hgrows.other i (hsize.symm ▸ hlt) hparent.1 hparent.2
  · obtain ⟨name, hname, hnew⟩ := hgrows.new
    obtain rfl := Option.some.inj hname
    rw [hsize] at hnew
    rw [get?_upTo_of_lt (Nat.lt_succ_self i) hn, upTo_succ_self h hn, hnew, ← h.id_eq i n hn]
    rfl
  · have hout : ¬ i < d'.size := by
      rw [hgrows.size_eq, hsize]
      omega
    rw [get?_upTo, if_neg (by omega), ← Option.not_isSome_iff_eq_none, Option.isSome_iff_exists,
      get?_eq_some_iff]
    exact hout

theorem reached_upTo (h : d.Sound) (hv : v ≤ d.size) : Artifact.Reached (.dag (d.upTo v)) := by
  induction v with
  | zero => exact .empty
  | succ v ih =>
    obtain ⟨n, hn⟩ := get?_eq_some_iff.mpr hv
    obtain ⟨k, b, hb, hspec, haction⟩ := Builder.exists_reached n (h.parents_nodup v n hn)
    have hnodup : ((NodeDraft.ofNode n).spec.links.map Link.parent).Nodup :=
      (NodeDraft.map_parent_links _).symm ▸ h.parents_nodup v n hn
    obtain ⟨d', hinsert, hgrows⟩ := exists_insert n.action hnodup (admits_upTo h hn)
    rw [← eq_of_grows h hn hgrows]
    exact .node hb (ih (Nat.le_of_succ_le hv)) (by rw [Builder.build, hspec, haction]; exact hinsert)

/-- The dags that builders fill are the sound ones. -/
theorem reached_iff_sound : Artifact.Reached (.dag d) ↔ d.Sound := by
  refine ⟨Artifact.Reached.sound, fun h => ?_⟩
  rw [← upTo_size h]
  exact reached_upTo h (Nat.le_refl _)

end Dag

/-- The dag of a workflow can be filled by builders. -/
theorem Workflow.Built.dag_reached {w : Workflow} (h : w.Built) : Artifact.Reached (.dag w.dag) :=
  Dag.reached_iff_sound.mpr h.sound.dag

end BatchFlow

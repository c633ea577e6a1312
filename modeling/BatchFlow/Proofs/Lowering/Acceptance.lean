import BatchFlow.Proofs.Lowering.Drawn
import BatchFlow.Proofs.Workflow.Built

/-!
# Which workflows are lowered

Lowering accepts a workflow when its names are free, its decisions have defaults, and its branches
are nested: each node with two parents is where the branches of its immediate dominator come
together. If it refuses the branches, it names a node for which that fails.
-/

namespace BatchFlow
namespace Workflow

/-- No node or handler has the name of a structural vertex. -/
def NamesFree (w : Workflow) : Prop :=
  ∀ n ∈ w.nodes, n.name ∉ ["start", "end", "kill"] ∧
    ∀ h, n.handler = some h → h.name ∉ ["start", "end", "kill"]

/-- Every node with conditional children has a default among them. -/
def Defaulted (w : Workflow) : Prop :=
  ∀ n ∈ w.nodes, n.conditionalChildren ≠ [] →
    ∃ b ∈ n.conditionalChildren, b.condition.isDefault = true

/-- Every node with two or more parents is the immediate post-dominator of its immediate
dominator. -/
def Nested (w : Workflow) : Prop := ∀ n ∈ w.nodes, 2 ≤ n.parents.length → w.MergesAt n.id

theorem namesFree_iff {w : Workflow} :
    w.NamesFree ↔ ∀ name ∈ w.givenNames, name ∉ reservedNames := by
  simp only [givenNames, List.mem_flatMap, List.mem_cons, Option.mem_toList, Option.map_eq_some_iff]
  constructor
  · rintro h name ⟨n, hn, rfl | ⟨x, hx, rfl⟩⟩
    · exact (h n hn).1
    · exact (h n hn).2 x hx
  · intro h n hn
    exact ⟨h _ ⟨n, hn, .inl rfl⟩, fun x hx => h _ ⟨n, hn, .inr ⟨x, hx, rfl⟩⟩⟩

theorem nameOf_eq {w : Workflow} {id : Nat} {n : Node} (hn : w.node? id = some n) :
    w.nameOf id = n.name := by
  simp [nameOf, hn]

theorem defaulted_iff {w : Workflow} : w.Defaulted ↔ ∀ id, ¬ w.LacksDefault id := by
  have hnone : ∀ n : Node, n.defaultChild? = none ↔
      ∀ b ∈ n.conditionalChildren, ¬ b.condition.isDefault = true := fun n =>
    Node.defaultChild?_eq_none_iff.trans List.countP_eq_zero
  constructor
  · rintro h id ⟨n, hn, hcond, hdefault⟩
    obtain ⟨b, hb, hdef⟩ := h n (Dag.mem_nodes_iff.mpr ⟨id, hn⟩) hcond
    exact (hnone n).mp hdefault b hb hdef
  · intro h n hn hcond
    obtain ⟨id, hid⟩ := Dag.mem_nodes_iff.mp hn
    by_contra hno
    push Not at hno
    exact h id ⟨n, hid, hcond, (hnone n).mpr hno⟩

theorem Sound.of_crossedAt {w : Workflow} (hw : w.Sound) {x : Nat} (hx : w.CrossedAt x) :
    ∃ n ∈ w.nodes, n.id = x ∧ w.nameOf x = n.name ∧ 2 ≤ n.parents.length ∧ ¬ w.MergesAt x := by
  obtain ⟨n, hn⟩ : ∃ n, w.node? x = some n := Dag.get?_eq_some_iff.mpr hx.1
  exact ⟨n, Dag.mem_nodes_iff.mpr ⟨x, hn⟩, hw.dag.id_eq x n hn, nameOf_eq hn,
    (hw.two_parents_iff hn).mp hx.2.1, hx.not_mergesAt⟩

/-- Lowering accepts exactly the workflows with free names, defaults and nested branches, and the
node that it blames for branches that are not nested is one where they are not. -/
theorem Built.lowers_iff {w : Workflow} (hb : w.Built) :
    ((∃ g, Graph.ofWorkflow w = .ok g) ↔ w.NamesFree ∧ w.Defaulted ∧ w.Nested) ∧
      ∀ name, Graph.ofWorkflow w = .error (.unstructuredBranch name) →
        ∃ n ∈ w.nodes, n.name = name ∧ 2 ≤ n.parents.length ∧ ¬ w.MergesAt n.id := by
  have hw := hb.sound
  have hends := hw.ofWorkflow_ends
  refine ⟨⟨fun hok => ?_, fun ⟨hnames, hdefaults, hnested⟩ => ?_⟩, fun name herr => ?_⟩
  · obtain ⟨g, hg⟩ := hok
    obtain ⟨hnames, r, ho, -⟩ := hends.good_of_eq hg
    refine ⟨namesFree_iff.mpr hnames, defaulted_iff.mpr (ho.not_lacksDefault hw), ?_⟩
    intro n hn htwo
    obtain ⟨id, hid⟩ := Dag.mem_nodes_iff.mp hn
    rw [hw.dag.id_eq id n hid]
    exact ho.mergesAt hw hid htwo
  · cases hlow : Graph.ofWorkflow w with
    | ok g => exact ⟨g, rfl⟩
    | error e =>
      rcases hends.bad_of_eq hlow with ⟨⟨name, hgiven, hres⟩, -⟩ | ⟨id, hlacks, -⟩ | ⟨x, hx, -⟩
      · exact absurd hres (namesFree_iff.mp hnames name hgiven)
      · exact absurd hlacks (defaulted_iff.mp hdefaults id)
      · obtain ⟨n, hn, rfl, -, htwo, hnot⟩ := hw.of_crossedAt hx
        exact absurd (hnested n hn htwo) hnot
  · rcases hends.bad_of_eq herr with ⟨-, _, h⟩ | ⟨_, -, h⟩ | ⟨x, hx, h⟩
    · cases h
    · cases h
    · obtain ⟨n, hn, rfl, hname, htwo, hnot⟩ := hw.of_crossedAt hx
      refine ⟨n, hn, ?_, htwo, hnot⟩
      rw [← hname]
      exact (GraphError.unstructuredBranch.inj h).symm

/-- Of two workflows, one is nested and the other is not. -/
theorem nightly_lowers_crossing_refused :
    ((∃ g, Graph.ofWorkflow nightly = .ok g) ∧
      nightly.NamesFree ∧ nightly.Defaulted ∧ nightly.Nested) ∧
    Graph.ofWorkflow crossing = .error (.unstructuredBranch "sum") ∧
      ∃ n ∈ crossing.nodes, n.name = "sum" ∧ 2 ≤ n.parents.length ∧ ¬ crossing.MergesAt n.id := by
  have hok : ∃ g, Graph.ofWorkflow nightly = .ok g := ⟨_, rfl⟩
  have herror : Graph.ofWorkflow crossing = .error (.unstructuredBranch "sum") := rfl
  exact ⟨⟨hok, nightly_built.lowers_iff.1.mp hok⟩, herror,
    crossing_built.lowers_iff.2 "sum" herror⟩

end Workflow
end BatchFlow

import BatchFlow.Builder
import BatchFlow.Workflow.Order
import BatchFlow.Proofs.Outcome
import BatchFlow.Proofs.Dag.Renumbering
import BatchFlow.Proofs.Workflow.Made

/-!
# What building reaches

Builders, dags and workflows come about from each other: a builder may repeat a node of a dag or of
a workflow, a dag grows by what builders build into it, and a workflow is built from a dag. So what
can be reached is one inductive predicate over all three, and what holds of all that is reached is
proved by one induction: builders never hold a parent twice, and dags are sound.
-/

namespace BatchFlow

/-- What the building interface works on. -/
inductive Artifact where
  | builder (k : Kind) (b : Builder k)
  | dag (d : Dag)
  | workflow (w : Workflow)

namespace Artifact

/-- What some sequence of operations makes. An operation that fails changes nothing and needs no
case of its own. -/
inductive Reached : Artifact → Prop
  | new (k : Kind) : Reached (.builder k (.new k))
  | settings (k : Kind) (s : k.Settings) : Reached (.builder k (.ofSettings k s))
  | dagNode {k : Kind} {d : Dag} {n : Node} {b : Builder k} : Reached (.dag d) → n ∈ d.nodes →
      Builder.ofNode k n = .ok b → Reached (.builder k b)
  | workflowNode {k : Kind} {w : Workflow} {n : Node} {b : Builder k} : Reached (.workflow w) →
      n ∈ w.nodes → Builder.ofNode k n = .ok b → Reached (.builder k b)
  | edit {k : Kind} {b b' : Builder k} {e : Builder.Edit k} : Reached (.builder k b) →
      b.apply e = .ok b' → Reached (.builder k b')
  | empty : Reached (.dag {})
  | node {k : Kind} {b : Builder k} {d d' : Dag} {id : NodeId} : Reached (.builder k b) →
      Reached (.dag d) → b.build d = .ok (id, d') → Reached (.dag d')
  | build {d : Dag} {draft : Workflow.Draft} {w : Workflow} : Reached (.dag d) →
      draft.build d = .ok w → Reached (.workflow w)

end Artifact

/-- A workflow that was built from a dag, which was filled by builders. -/
def Workflow.Built (w : Workflow) : Prop := Artifact.Reached (.workflow w)

/-! ### Parents of a builder -/

namespace NodeDraft

/-- The draft with one more parent, behind the others of its sort. -/
def withParent (d : NodeDraft) (id : NodeId) : Option Condition → NodeDraft
  | none => { d with plainParents := d.plainParents ++ [id] }
  | some c => { d with conditionalParents := d.conditionalParents ++ [⟨id, c⟩] }

@[simp] theorem name_withParent (d : NodeDraft) (id : NodeId) (c : Option Condition) :
    (d.withParent id c).name = d.name := by
  cases c <;> rfl

@[simp] theorem handler_withParent (d : NodeDraft) (id : NodeId) (c : Option Condition) :
    (d.withParent id c).handler = d.handler := by
  cases c <;> rfl

theorem hasParent_iff {d : NodeDraft} {id : NodeId} : d.hasParent id = true ↔ id ∈ d.parents :=
  List.contains_iff_mem

theorem addParent_of_mem {d : NodeDraft} {id : NodeId} (h : id ∈ d.parents)
    (c : Option Condition) : d.addParent id c = .error (.duplicateParent id) :=
  if_pos (hasParent_iff.mpr h)

theorem addParent_of_not_mem {d : NodeDraft} {id : NodeId} (h : id ∉ d.parents)
    (c : Option Condition) : d.addParent id c = .ok (d.withParent id c) := by
  unfold addParent
  rw [if_neg fun hc => h (hasParent_iff.mp hc)]
  cases c <;> rfl

theorem parents_withParent_perm (d : NodeDraft) (id : NodeId) (c : Option Condition) :
    (d.withParent id c).parents.Perm (id :: d.parents) := by
  cases c with
  | none => simp [withParent, parents]
  | some c => simp [withParent, parents, ← List.append_assoc]

/-- The draft with more parents, one behind the other. -/
def withParents (d : NodeDraft) (links : List Link) : NodeDraft :=
  links.foldl (fun d l => d.withParent l.parent l.condition) d

theorem parents_nodup_of_addParent {d d' : NodeDraft} {id : NodeId} {c : Option Condition}
    (h : d.parents.Nodup) (ha : d.addParent id c = .ok d') : d'.parents.Nodup := by
  by_cases hmem : id ∈ d.parents
  · cases (addParent_of_mem hmem c).symm.trans ha
  · cases (addParent_of_not_mem hmem c).symm.trans ha
    exact (parents_withParent_perm d id c).nodup_iff.mpr (List.nodup_cons.mpr ⟨hmem, h⟩)

theorem parents_nodup_of_removeParent {d d' : NodeDraft} {id : NodeId}
    (h : d.parents.Nodup) (hr : d.removeParent id = .ok d') : d'.parents.Nodup := by
  refine List.Sublist.nodup ?_ h
  unfold removeParent at hr
  by_cases hp : d.plainParents.contains id = true
  · simp only [hp, if_true, Except.ok.injEq] at hr
    subst hr
    exact List.erase_sublist.append_right _
  · by_cases hc : (d.conditionalParents.map Branch.node).contains id = true
    · simp only [hp, hc, if_true, if_false, Bool.false_eq_true, Except.ok.injEq] at hr
      subst hr
      exact (List.eraseP_sublist.map _).append_left _
    · simp only [hp, hc, if_false, Bool.false_eq_true, reduceCtorEq] at hr

theorem parents_nodup_of_apply {d d' : NodeDraft} {e : Edit} (h : d.parents.Nodup)
    (ha : d.apply e = .ok d') : d'.parents.Nodup := by
  cases e with
  | name text =>
    obtain ⟨v, -, hd⟩ := bind_eq_ok_iff.mp ha
    cases hd
    exact h
  | handler x =>
    obtain ⟨v, -, hd⟩ := bind_eq_ok_iff.mp ha
    cases hd
    exact h
  | noHandler =>
    obtain ⟨v, -, hd⟩ := bind_eq_ok_iff.mp ha
    cases hd
    exact h
  | parent id c => exact parents_nodup_of_addParent h ha
  | dropParent id => exact parents_nodup_of_removeParent h ha
  | clearParents =>
    cases ha
    exact List.nodup_nil

theorem map_parent_links (d : NodeDraft) : d.spec.links.map Link.parent = d.parents := by
  simp [NodeSpec.links, spec, parents, Function.comp_def]

end NodeDraft

namespace Builder

variable {k : Kind} {b b' : Builder k}

theorem parents_of_ofNode {n : Node} (h : Builder.ofNode k n = .ok b) :
    b.node.parents = n.parents := by
  unfold Builder.ofNode at h
  split at h
  · cases h
    rfl
  · cases h

theorem parents_nodup_of_apply {e : Edit k} (h : b.node.parents.Nodup)
    (ha : b.apply e = .ok b') : b'.node.parents.Nodup := by
  cases e with
  | node e =>
    obtain ⟨d, hd, hb⟩ := bind_eq_ok_iff.mp ha
    cases hb
    exact NodeDraft.parents_nodup_of_apply h hd
  | action e =>
    obtain ⟨d, -, hb⟩ := bind_eq_ok_iff.mp ha
    cases hb
    exact h

/-- Different parents can be added one after the other. -/
theorem foldlM_parents (links : List Link) {b : Builder k}
    (hnodup : (b.node.parents ++ links.map Link.parent).Nodup) :
    (links.map fun l => Edit.node (.parent l.parent l.condition)).foldlM apply b =
      .ok { b with node := b.node.withParents links } := by
  induction links generalizing b with
  | nil => rfl
  | cons l rest ih =>
    have hl : l.parent ∉ b.node.parents := fun hmem =>
      (List.nodup_append.mp hnodup).2.2 l.parent hmem l.parent List.mem_cons_self rfl
    have hfirst : b.apply (.node (.parent l.parent l.condition)) =
        .ok { b with node := b.node.withParent l.parent l.condition } :=
      bind_eq_ok_iff.mpr ⟨_, NodeDraft.addParent_of_not_mem hl l.condition, rfl⟩
    have hperm := (b.node.parents_withParent_perm l.parent l.condition).append_right
      (rest.map Link.parent)
    rw [List.map_cons, List.foldlM_cons, hfirst]
    exact ih ((hperm.trans List.perm_middle.symm).nodup_iff.mpr hnodup)

end Builder

/-! ### Workflows -/

/-- A sound dag, its roots, and distinct names. -/
structure Workflow.Sound (w : Workflow) : Prop where
  dag : w.dag.Sound
  roots_eq : w.roots = (w.nodes.filter fun n => n.parents.isEmpty).map Node.id
  names_nodup : (w.nodes.map Node.name).Nodup

namespace Dag

theorem repeatedName?_go {seen : List String} {ns : List Node}
    (h : repeatedName?.go seen ns = none) :
    (ns.map Node.name).Nodup ∧ ∀ n ∈ ns, n.name ∉ seen := by
  induction ns generalizing seen with
  | nil => simp
  | cons n rest ih =>
    unfold repeatedName?.go at h
    by_cases hn : seen.contains n.name = true
    · simp only [hn, if_true, reduceCtorEq] at h
    · simp only [hn, if_false, Bool.false_eq_true] at h
      obtain ⟨hnodup, hnot⟩ := ih h
      have hn' : n.name ∉ seen := by simpa using hn
      constructor
      · rw [List.map_cons, List.nodup_cons]
        refine ⟨fun hmem => ?_, hnodup⟩
        obtain ⟨m, hm, he⟩ := List.mem_map.mp hmem
        exact hnot m hm (by simp [he])
      · intro m hm
        rcases List.mem_cons.mp hm with rfl | hm
        · exact hn'
        · exact fun hs => hnot m hm (List.mem_cons_of_mem _ hs)

theorem connected_sorted (d : Dag) (entries : List NodeId) :
    (d.connected entries).Pairwise (· < ·) :=
  List.pairwise_lt_range.filter _

theorem lt_of_mem_connected {d : Dag} {entries : List NodeId} :
    ∀ a ∈ d.connected entries, a < d.size := by
  intro a ha
  exact List.mem_range.mp (List.mem_filter.mp ha).1

end Dag

theorem Workflow.Draft.sound_of_build {draft : Workflow.Draft} {d : Dag} {w : Workflow}
    (h : d.Sound) (hb : draft.build d = .ok w) : w.Sound := by
  obtain ⟨name, -, hrep, rfl⟩ := made_of_build hb
  exact ⟨h.subset (d.connected_sorted _) Dag.lt_of_mem_connected, rfl, (Dag.repeatedName?_go hrep).1⟩

namespace Artifact

/-- What holds of all that is reached. -/
def Sound : Artifact → Prop
  | builder _ b => b.node.parents.Nodup
  | dag d => d.Sound
  | workflow w => w.Sound

theorem Reached.sound {a : Artifact} (h : Reached a) : a.Sound := by
  induction h with
  | new k => exact List.nodup_nil
  | settings k s => exact List.nodup_nil
  | @dagNode k d n b _ hn hb ih =>
    obtain ⟨i, hi⟩ := Dag.mem_nodes_iff.mp hn
    rw [Sound, Builder.parents_of_ofNode hb]
    exact Dag.Awaiting.parents_nodup ih i n hi
  | @workflowNode k w n b _ hn hb ih =>
    obtain ⟨i, hi⟩ := Dag.mem_nodes_iff.mp hn
    rw [Sound, Builder.parents_of_ofNode hb]
    exact ih.dag.parents_nodup i n hi
  | edit _ ha ih => exact Builder.parents_nodup_of_apply ih ha
  | empty => exact Dag.sound_empty
  | @node k b d d' id _ _ hb ihb ihd =>
    exact Dag.Sound.insert ihd ((NodeDraft.map_parent_links b.node).symm ▸ ihb) hb
  | build _ hb ih => exact Workflow.Draft.sound_of_build ih hb

end Artifact

theorem Workflow.Built.sound {w : Workflow} (h : w.Built) : w.Sound :=
  Artifact.Reached.sound h

/-! ### Scripts -/

/-- What builds the nodes of a dag: for each node its kind and the edits of a new builder. -/
abbrev Script := List ((k : Kind) × List (Builder.Edit k))

namespace Script

/-- Builds one more node. -/
def grow (d : Dag) (node : (k : Kind) × List (Builder.Edit k)) : Except BuildError Dag := do
  let b ← node.2.foldlM Builder.apply (.new node.1)
  return (← b.build d).2

def dag (s : Script) : Except BuildError Dag := s.foldlM grow {}

/-- The workflow that a draft makes of the dag. -/
def workflow (s : Script) (draft : Workflow.Draft) : Except BuildError Workflow := do
  draft.build (← s.dag)

theorem reached_foldlM_apply {k : Kind} {edits : List (Builder.Edit k)} {b b' : Builder k}
    (hb : Artifact.Reached (.builder k b)) (h : edits.foldlM Builder.apply b = .ok b') :
    Artifact.Reached (.builder k b') := by
  induction edits generalizing b with
  | nil =>
    cases h
    exact hb
  | cons e rest ih =>
    rw [List.foldlM_cons] at h
    obtain ⟨next, he, hrest⟩ := bind_eq_ok_iff.mp h
    exact ih (.edit hb he) hrest

theorem reached_grow {d d' : Dag} {node : (k : Kind) × List (Builder.Edit k)}
    (hd : Artifact.Reached (.dag d)) (h : grow d node = .ok d') : Artifact.Reached (.dag d') := by
  obtain ⟨b, hb, hbuild⟩ := bind_eq_ok_iff.mp h
  obtain ⟨⟨id, grown⟩, hn, hgrown⟩ := bind_eq_ok_iff.mp hbuild
  cases hgrown
  exact .node (reached_foldlM_apply (.new node.1) hb) hd hn

theorem reached_foldlM_grow {s : Script} {d d' : Dag} (hd : Artifact.Reached (.dag d))
    (h : s.foldlM grow d = .ok d') : Artifact.Reached (.dag d') := by
  induction s generalizing d with
  | nil =>
    cases h
    exact hd
  | cons node rest ih =>
    rw [List.foldlM_cons] at h
    obtain ⟨next, hn, hrest⟩ := bind_eq_ok_iff.mp h
    exact ih (reached_grow hd hn) hrest

/-- What a script makes is built. -/
theorem built {s : Script} {draft : Workflow.Draft} {w : Workflow}
    (h : s.workflow draft = .ok w) : w.Built := by
  obtain ⟨d, hd, hbuild⟩ := bind_eq_ok_iff.mp h
  exact .build (reached_foldlM_grow .empty hd) hbuild

/-- A node without settings, from its name and its parents. -/
def plainNode (name : String) (parents : List (NodeId × Option Condition)) :
    (k : Kind) × List (Builder.Edit k) :=
  ⟨.custom "none", .node (.name name) :: parents.map fun p => .node (.parent p.1 p.2)⟩

/-- A fork, a shortcut into the node where its branches merge, and a decision with an empty
branch. -/
def nightly : Script :=
  [plainNode "load" [], plainNode "clean" [(0, none)], plainNode "check" [(0, none)],
    plainNode "merge" [(1, none), (2, none), (0, none)], plainNode "archive" [(3, some .otherwise)],
    plainNode "publish" [(4, none), (3, some (.labeled "small"))]]

/-- Two pairs of branches that cross. -/
def crossing : Script :=
  [plainNode "left" [], plainNode "right" [], plainNode "sum" [(0, none), (1, none)],
    plainNode "difference" [(0, none), (1, none)]]

/-- The workflow of the component of the first node. -/
def workflowOfFirst (s : Script) (name : String) : Workflow :=
  match s.workflow { name := .ofDefault name, entries := [0] } with
  | .ok w => w
  | .error _ => { name := "", dag := {}, roots := [] }

end Script

def Workflow.nightly : Workflow := Script.nightly.workflowOfFirst "nightly"

def Workflow.crossing : Workflow := Script.crossing.workflowOfFirst "crossing"

theorem Workflow.nightly_built : nightly.Built := by
  have hmade : Script.nightly.workflow { name := .ofDefault "nightly", entries := [0] } =
      .ok nightly := rfl
  exact Script.built hmade

theorem Workflow.crossing_built : crossing.Built := by
  have hmade : Script.crossing.workflow { name := .ofDefault "crossing", entries := [0] } =
      .ok crossing := rfl
  exact Script.built hmade

end BatchFlow

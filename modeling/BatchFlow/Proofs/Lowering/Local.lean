import BatchFlow.Proofs.Lowering.Counting
import BatchFlow.Proofs.Lowering.Nesting
import BatchFlow.Proofs.Outline.Parts
import BatchFlow.Proofs.Workflow.Meeting

/-!
# What comes right behind a node

In a lowered graph the vertex of a node has one child, and what that is depends on the children of
the node and on where its branches merge, and on nothing else. A node with conditional children is
followed by a decision with one branch for each of them; a branch that begins where the branches
merge has no vertices. A node with two or more plain children that do not begin there is followed by
a fork, and a node with one such child by that child. What follows the start depends on the roots in
the same way. So there are as many decisions and forks as there are nodes that ask for them.
-/

namespace BatchFlow

namespace Graph

/-- The vertex has one child. -/
def LeadsOnlyTo (g : Graph) (v t : VertexId) : Prop :=
  ∃ x, g.get? v = some x ∧ x.arcs = [⟨t, none⟩]

/-- The vertex is a fork, and its branches begin with these nodes. -/
def ForksInto (g : Graph) (t : VertexId) (heads : List NodeId) : Prop :=
  ∃ x, g.get? t = some x ∧ x.role = .fork ∧
    List.Forall₂ (fun c a => a.condition = none ∧ g.Wraps a.target c) heads x.arcs

/-- The vertex is a decision with these branches. One that begins where the branches merge leads
right into the closing of the block. -/
def DecidesAmong (g : Graph) (t : VertexId) (merge : NodeId) (branches : List Branch) : Prop :=
  ∃ x y, g.get? t = some x ∧ x.role = .decision ∧
    g.get? (t + 1) = some y ∧ y.role = .decisionJoin ∧ g.Block t x y ∧
    List.Forall₂ (fun b a => a.condition = some b.condition ∧
      if b.node = merge then a.target = t + 1 else g.Wraps a.target b.node) branches x.arcs

/-- The vertex opens what lies between a place with these branches, conditional ones or plain ones
that have vertices, and the merge point. -/
structure Opening (g : Graph) (t : VertexId) (merge : NodeId) (choices : List Branch)
    (heads : List NodeId) : Prop where
  decision : choices ≠ [] → g.DecidesAmong t merge choices
  fork : 2 ≤ heads.length → g.ForksInto t heads
  single : ∀ c, heads = [c] → g.Wraps t c

end Graph

namespace Workflow.Sound

variable {w : Workflow} (hw : w.Sound)
include hw

/-- Of several roots all are branches. -/
theorem filter_roots (htwo : 2 ≤ w.roots.length) :
    (w.plain .source).filter (· ≠ w.mergeOf .source) = w.roots :=
  List.filter_eq_self.mpr fun _ hc => by simpa using hw.root_ne_mergeOf hc htwo

theorem opens_source_iff : w.opens .source = some .fork ↔ 2 ≤ w.roots.length := by
  rw [hw.opens_eq_fork_iff]
  constructor
  · intro htwo
    exact Nat.le_trans htwo (List.length_filter_le _ _)
  · intro htwo
    rw [hw.filter_roots htwo]
    exact htwo

end Workflow.Sound

namespace Row.Outlines

variable {w : Workflow} {r : Row} (hw : w.Sound) (ho : Row.Outlines w r) (name : String)
  (taken : List String)
include hw ho

/-- What leaves a vertex with room for one child. -/
theorem leadsOnlyTo {v t : Nat} {x : Vertex} (hx : (r.graph name taken).get? v = some x)
    (hrole : x.role = .start ∨ ∃ s, x.role = .task s) (he : ⟨⟨v, 0, none⟩, t⟩ ∈ r.allWires) :
    (r.graph name taken).LeadsOnlyTo v t := by
  have hcomplete := ho.complete hw name taken hx
  have hone : x.arcs.length = 1 := by
    rw [← List.length_map (f := Arc.condition)]
    rcases hrole with hrole | ⟨s, hrole⟩
    · rw [hrole] at hcomplete
      exact hcomplete.2
    · rw [hrole] at hcomplete
      exact hcomplete.2
  obtain ⟨x', hx', harc⟩ := ((r.shows_graph (ho.proper hw) name taken).wire_iff _).mpr he
  obtain rfl : x = x' := Option.some.inj (hx.symm.trans hx')
  obtain ⟨a, ha⟩ := List.length_eq_one_iff.mp hone
  rw [ha] at harc
  exact ⟨x, hx, by rw [ha, show a = ⟨t, none⟩ from Option.some.inj harc]⟩

/-- A block has an opening, and its branches begin with their heads. -/
theorem exists_arcs {f : Frame} (hf : f ∈ r.frames 2) {merge : NodeId}
    {heads : List (NodeId × Option Condition)} (ht : Arms.Traces w merge heads f.arms) :
    ∃ x, (r.graph name taken).get? f.opening = some x ∧ x.role = f.role ∧
      List.Forall₂ (fun h a => a.condition = h.2 ∧ if h.1 = merge then a.target = f.opening + 1
        else (r.graph name taken).Wraps a.target h.1) heads x.arcs := by
  have hshows := r.shows_graph (ho.proper hw) name taken
  have hsites := r.sites_of_frame 2 f hf
  obtain ⟨x, hx, hrole⟩ := (hshows.role_iff f.opening f.role).mpr
    (Row.mem_allSites_of_mem_sites (hsites List.mem_cons_self))
  refine ⟨x, hx, hrole, ?_⟩
  have hlanes := ht.forall₂_lanes hw (f.opening + 2) (f.opening + 1)
  rw [(Row.edges_of_get? hx).1, (Row.lies_allWires hf).wiresFrom_opening,
    f.arms.map_arc_wiresFrom (by omega), List.forall₂_map_right_iff]
  refine hlanes.imp fun h l hl => ⟨hl.1, ?_⟩
  by_cases hm : h.1 = merge
  · simpa only [if_pos hm] using hl.2
  · simp only [if_neg hm] at hl ⊢
    obtain ⟨-, t, hsource, hsite⟩ := hl
    have hmem := hsites (List.mem_cons_of_mem _ (List.mem_cons_of_mem _ hsite))
    exact hshows.wraps_iff.mpr ⟨t, hmem, hsource⟩

/-- A row that begins by bridging a place opens what lies between the place and its merge point. -/
theorem opening {a : Place} {inner rest : Row} (hb : Row.Bridges w a inner) {p : Nat}
    (hpart : (inner.append rest).StandsIn p r 2) (t : Nat) :
    (r.graph name taken).Opening ((inner.append rest).head p t) (w.mergeOf a) (w.choices a)
      ((w.plain a).filter (· ≠ w.mergeOf a)) := by
  have hshows := r.shows_graph (ho.proper hw) name taken
  have hbranches : w.choices a = [] →
      ((w.plain a).filter (· ≠ w.mergeOf a)).map (·, none) = w.branches a :=
    fun hnil => by rw [Workflow.branches, if_pos hnil]
  have hne : ∀ c ∈ (w.plain a).filter (· ≠ w.mergeOf a), c ≠ w.mergeOf a :=
    fun c hc => by simpa using (List.mem_filter.mp hc).2
  have hplain : w.choices a ≠ [] → (w.plain a).filter (· ≠ w.mergeOf a) = [] :=
    fun hcons => by rw [hw.plain_eq_nil_of_choices hcons]; rfl
  generalize (w.plain a).filter (· ≠ w.mergeOf a) = heads at hbranches hne hplain
  cases hb with
  | skip hnil hnone =>
    obtain rfl : heads = [] := List.map_eq_nil_iff.mp ((hbranches hnil).trans hnone)
    exact ⟨fun h => absurd hnil h, fun h => absurd h (by decide), fun c hc => by cases hc⟩
  | @single _ c _ hnil hone ht =>
    obtain ⟨d, rfl, hpair⟩ := List.map_eq_singleton_iff.mp ((hbranches hnil).trans hone)
    obtain rfl : c = d := (congrArg Prod.fst hpair).symm
    obtain ⟨n, next, hid, rfl⟩ := ht.exists_task hw (hne c (List.mem_singleton_self c))
    refine ⟨fun h => absurd hnil h, fun h => absurd h (Nat.lt_irrefl 1), fun d hd => ?_⟩
    obtain rfl : c = d := List.head_eq_of_cons_eq hd
    exact hshows.wraps_iff.mpr ⟨n.task, hpart.sites List.mem_cons_self, hid⟩
  | @fork _ arms hnil htwo ht =>
    have hf : ⟨p, .fork, arms⟩ ∈ r.frames 2 := hpart.frames List.mem_cons_self
    obtain ⟨x, hx, hrole, harcs⟩ := ho.exists_arcs hw name taken hf ht
    rw [← hbranches hnil, List.forall₂_map_left_iff] at harcs
    refine ⟨fun h => absurd hnil h, fun _ => ⟨x, hx, hrole, ?_⟩, ?_⟩
    · refine List.forall₂_iff_get.mpr ⟨harcs.length_eq, fun i hi hi' => ?_⟩
      obtain ⟨hcondition, htarget⟩ := (List.forall₂_iff_get.mp harcs).2 i hi hi'
      rw [if_neg (hne _ (List.get_mem heads ⟨i, hi⟩))] at htarget
      exact ⟨hcondition, htarget⟩
    · rintro c rfl
      rw [← hbranches hnil] at htwo
      exact absurd htwo (Nat.lt_irrefl 1)
  | @decision _ arms hdefault ht =>
    obtain ⟨b, hb, -⟩ := hdefault
    have hcons : w.choices a ≠ [] := List.ne_nil_of_mem hb
    have hf : ⟨p, .decision, arms⟩ ∈ r.frames 2 := hpart.frames List.mem_cons_self
    obtain ⟨x, hx, hrole, harcs⟩ := ho.exists_arcs hw name taken hf ht
    obtain ⟨y, hy, hclosing⟩ := (hshows.role_iff (p + 1) .decisionJoin).mpr
      (Row.mem_allSites_of_mem_sites (r.closing_mem_sites 2 _ hf))
    rw [Workflow.branches, if_neg hcons, List.forall₂_map_left_iff] at harcs
    have hblock := ho.block hw name taken hf hx hy hrole.symm hclosing.symm
    obtain rfl := hplain hcons
    exact ⟨fun _ => ⟨x, y, hx, hrole, hy, hclosing, hblock, harcs⟩,
      fun h => absurd h (by decide), fun c hc => by cases hc⟩

/-- Every task is followed by what bridges its node. -/
theorem bridgedAt {v : Nat} {t : Task} (h : (v, .task t) ∈ r.sites 2) :
    Row.BridgedAt w v t r 2 := by
  cases ho with
  | @mk opening rest hb ht _ =>
    rw [Row.sites_append, List.mem_append] at h
    rcases h with h | h
    · exact (hb.bridgedAt hw 2 v t h).trans (.before opening rest 2)
    · exact (ht.bridgedAt hw (2 + opening.size) v t h).trans (.behind opening rest 2)

/-- Behind the vertex of a node comes what lies between the node and its merge point. -/
theorem node_opening {u : Nat} {n : Node} (hn : w.node? u = some n) :
    ∃ v t, (∀ v', (r.graph name taken).Wraps v' u ↔ v' = v) ∧
      (r.graph name taken).LeadsOnlyTo v t ∧
      (r.graph name taken).Opening t (w.mergeOf (.node u)) n.conditionalChildren
        (n.plainChildren.filter (· ≠ w.mergeOf (.node u))) := by
  have hshows := r.shows_graph (ho.proper hw) name taken
  obtain ⟨v, hv⟩ := hshows.exists_wraps hw ho (Dag.lt_size hn)
  obtain ⟨s, hsite, hsource⟩ := hshows.wraps_iff.mp ((hv v).mpr rfl)
  obtain ⟨m, inner, rest, hm, rfl, hb, hpart⟩ := ho.bridgedAt hw hsite
  obtain rfl : m.id = u := hsource
  obtain rfl : m = n := Option.some.inj (hm.symm.trans hn)
  obtain ⟨x, hx, hrole⟩ := (hshows.role_iff v _).mpr (Row.mem_allSites_of_mem_sites hsite)
  obtain ⟨t, hwire⟩ := hpart.wire_behind ⟨0, 0, none⟩ 1
  have hopening := ho.opening hw name taken hb ((Row.StandsIn.behind_task m _ v).trans hpart) t
  rw [Workflow.choices_node hn, Workflow.plain_node hn] at hopening
  exact ⟨v, _, hv, ho.leadsOnlyTo hw name taken hx (.inr ⟨_, hrole⟩) hwire, hopening⟩

/-- Behind the start comes what lies between the source and where the roots merge, or what stands
there. -/
theorem start_opening :
    ∃ t, (r.graph name taken).LeadsOnlyTo 0 t ∧ (w.roots = [] → t = 1) ∧
      (∀ c, w.roots = [c] → (r.graph name taken).Wraps t c) ∧
      (2 ≤ w.roots.length → (r.graph name taken).ForksInto t w.roots) := by
  have hshows := r.shows_graph (ho.proper hw) name taken
  obtain ⟨x, hx, hrole⟩ := (hshows.role_iff 0 .start).mpr List.mem_cons_self
  obtain ⟨ws, hws, -⟩ := r.wiresTo_eq_cons ⟨0, 0, none⟩ 2 1
  have hwire : ⟨⟨0, 0, none⟩, r.head 2 1⟩ ∈ r.allWires := by
    rw [Row.allWires, hws]
    exact List.mem_cons_self
  refine ⟨r.head 2 1, ho.leadsOnlyTo hw name taken hx (.inl hrole) hwire, ?_⟩
  cases ho with
  | @mk opening rest hb ht hnodup =>
    have hopening := (Row.Outlines.mk hb ht hnodup).opening hw name taken hb (.refl _ 2) 1
    have hle : w.mergeOf .source ≤ w.size := hw.mergeOf_le (Nat.zero_le _)
    -- Without branches the row begins with what stands where the roots merge.
    have hdone : (w.plain .source).filter (· ≠ w.mergeOf .source) = [] → opening = .done := by
      intro hnil
      have hbranches : w.branches .source = [] := by
        rw [Workflow.branches, if_pos (show w.choices .source = [] from rfl), hnil]
        rfl
      cases hb with
      | skip _ _ => rfl
      | single _ hone _ => exact absurd (hbranches.symm.trans hone) (List.cons_ne_nil _ _).symm
      | fork _ htwo _ => simp [hbranches] at htwo
      | decision hdefault _ => simp [Workflow.choices] at hdefault
    refine ⟨fun hnil => ?_, fun c hc => ?_, fun htwo => ?_⟩
    · obtain rfl : opening = .done := hdone (by rw [Workflow.plain, hnil]; rfl)
      have hsize : w.size = 0 :=
        Nat.eq_zero_of_not_pos fun hpos => hw.roots_ne_nil hpos hnil
      obtain rfl := ht.eq_done (Nat.le_antisymm hle (hsize ▸ Nat.zero_le _))
      rfl
    · have hmerge : w.mergeOf .source = c := hw.mergeOf_eq_of_next (Nat.zero_le _) hc
      obtain rfl : opening = .done := hdone (by simp [Workflow.plain, hc, hmerge])
      have hroot : c ∈ w.roots := hc ▸ List.mem_singleton_self c
      have hlt : c < w.size := (hw.of_mem_next (a := .source) hroot).2
      rw [hmerge] at ht
      obtain ⟨n, next, hid, rfl⟩ := ht.exists_task hw (Nat.ne_of_lt hlt)
      exact hshows.wraps_iff.mpr ⟨n.task, List.mem_cons_self, hid⟩
    · rw [hw.filter_roots htwo] at hopening
      exact hopening.fork htwo

end Row.Outlines

/-- What comes right behind each node of a lowered graph, and behind the start, where `merge` gives
the immediate post-dominators of the nodes; and how many decisions and forks there are. -/
theorem Workflow.Built.lowered_locally {w : Workflow} (h : w.Built) {g : Graph}
    (hg : Graph.ofWorkflow w = .ok g) {merge : NodeId → NodeId}
    (hmerge : ∀ u < w.size,
      ImmediatePostDominator w.Flow w.sink (.node (merge u)) (.node u)) :
    (∀ u n, w.node? u = some n → ∃ v t, (∀ v', g.Wraps v' u ↔ v' = v) ∧ g.LeadsOnlyTo v t ∧
        g.Opening t (merge u) n.conditionalChildren
          (n.plainChildren.filter (· ≠ merge u))) ∧
      (∃ s t, g.start = some s ∧ g.LeadsOnlyTo s t ∧ (w.roots = [] → g.finish = some t) ∧
        (∀ r, w.roots = [r] → g.Wraps t r) ∧
        (2 ≤ w.roots.length → g.ForksInto t w.roots)) ∧
      g.vertices.countP (·.role = .decision) =
        w.nodes.countP (fun n => n.conditionalChildren ≠ []) ∧
      g.vertices.countP (·.role = .fork) = (if 2 ≤ w.roots.length then 1 else 0) +
        w.nodes.countP fun n => 2 ≤ (n.plainChildren.filter (· ≠ merge n.id)).length := by
  have hw := h.sound
  obtain ⟨r, ho, rfl⟩ := hw.exists_graph hg
  have hmergeOf : ∀ u < w.size, merge u = w.mergeOf (.node u) := fun u hu =>
    Place.node.inj ((hmerge u hu).unique hw.ranked
      (hw.leads_sink (a := .node u) (Nat.le_succ_of_le hu))
      (hw.immediatePostDominator_mergeOf (a := .node u) hu))
  have hnode : ∀ n ∈ w.nodes, w.node? n.id = some n := by
    intro n hn
    obtain ⟨i, hi⟩ := Dag.mem_nodes_iff.mp hn
    rwa [hw.dag.id_eq i n hi]
  refine ⟨fun u n hn => ?_, ?_, ?_, ?_⟩
  · rw [hmergeOf u (Dag.lt_size hn)]
    exact ho.node_opening hw w.name w.givenNames hn
  · obtain ⟨t, hleads, hnone, hone, hmany⟩ := ho.start_opening hw w.name w.givenNames
    exact ⟨0, t, rfl, hleads, fun hnil => congrArg some (hnone hnil).symm, hone, hmany⟩
  · rw [ho.countP_opening hw w.name w.givenNames (.inr rfl), if_neg (by simp [Workflow.opens,
      Workflow.choices]), Nat.zero_add]
    refine List.countP_congr fun n hn => ?_
    simp only [Workflow.opens_eq_decision_iff, Workflow.choices_node (hnode n hn)]
  · rw [ho.countP_opening hw w.name w.givenNames (.inl rfl)]
    refine congr_arg₂ (· + ·) (if_congr hw.opens_source_iff rfl rfl) ?_
    refine List.countP_congr fun n hn => ?_
    have hn' := hnode n hn
    simp only [hw.opens_eq_fork_iff, Workflow.plain_node hn', hmergeOf _ (Dag.lt_size hn')]

/-- Of the children of the first node one is where its branches merge, and so is one of the two
conditional children of the fourth. -/
theorem nightly_lowered_locally :
    (∀ u < Workflow.nightly.size, ImmediatePostDominator Workflow.nightly.Flow
      Workflow.nightly.sink (.node (Workflow.nightly.mergeOf (.node u))) (.node u)) ∧
    (∃ v t, Graph.nightly.Wraps v 0 ∧ Graph.nightly.LeadsOnlyTo v t ∧
      Graph.nightly.ForksInto t [1, 2]) ∧
    (∃ v t, Graph.nightly.Wraps v 3 ∧ Graph.nightly.LeadsOnlyTo v t ∧
      Graph.nightly.DecidesAmong t 5 [⟨4, .otherwise⟩, ⟨5, .labeled "small"⟩]) ∧
    Graph.nightly.vertices.countP (·.role = .decision) = 1 ∧
    Graph.nightly.vertices.countP (·.role = .fork) = 1 := by
  have hmerge : ∀ u < Workflow.nightly.size, ImmediatePostDominator Workflow.nightly.Flow
      Workflow.nightly.sink (.node (Workflow.nightly.mergeOf (.node u))) (.node u) :=
    fun u hu => Workflow.nightly_built.sound.immediatePostDominator_mergeOf (a := .node u) hu
  obtain ⟨hnodes, -, hdecisions, hforks⟩ :=
    Workflow.nightly_built.lowered_locally Graph.ofWorkflow_nightly hmerge
  obtain ⟨load, hload⟩ : ∃ n, Workflow.nightly.node? 0 = some n := ⟨_, rfl⟩
  obtain ⟨join, hjoin⟩ : ∃ n, Workflow.nightly.node? 3 = some n := ⟨_, rfl⟩
  obtain ⟨v, t, hv, hleads, hopening⟩ := hnodes 0 load hload
  obtain ⟨v', t', hv', hleads', hopening'⟩ := hnodes 3 join hjoin
  cases hload
  cases hjoin
  exact ⟨hmerge, ⟨v, t, (hv v).mpr rfl, hleads, hopening.fork (Nat.le_refl 2)⟩,
    ⟨v', t', (hv' v').mpr rfl, hleads', hopening'.decision (List.cons_ne_nil _ _)⟩,
    hdecisions, hforks⟩

end BatchFlow

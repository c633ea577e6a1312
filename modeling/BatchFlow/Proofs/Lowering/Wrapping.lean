import BatchFlow.Proofs.Lowering.Entered

/-!
# The vertex of a node

In a graph that shows an outline of a workflow, every node of the workflow is wrapped by one vertex.
The tasks among the sites of a row carry the nodes of the row in the order of the row.
-/

namespace BatchFlow

/-- The node that a site wraps. -/
def Site.node? (site : Site) : Option NodeId :=
  match site.2 with
  | .task t => some t.source
  | _ => none

/-- The vertex is the task of the node. -/
def Graph.Wraps (g : Graph) (v : VertexId) (u : NodeId) : Prop :=
  ∃ x t, g.get? v = some x ∧ x.role = .task t ∧ t.source = u

/-- One vertex is a child of another. -/
def Graph.Child (g : Graph) (a b : VertexId) : Prop := ∃ x, g.get? a = some x ∧ b ∈ x.children

theorem Site.node?_eq_some_iff {v : Nat} {role : Role} {u : NodeId} :
    Site.node? (v, role) = some u ↔ ∃ t, role = .task t ∧ t.source = u := by
  cases role <;> simp [Site.node?]

mutual

theorem Row.nodes_sites : ∀ (r : Row) (p : Nat), (r.sites p).filterMap Site.node? = r.ids
  | .done, _ => rfl
  | .task n next, p => by
    rw [Row.ids_task, ← Row.nodes_sites next (p + 1)]
    rfl
  | .fork arms next, p
  | .decision arms next, p => by
    simp only [Row.ids_fork, Row.ids_decision]
    rw [← Arms.nodes_sites arms (p + 2), ← Row.nodes_sites next (p + 2 + arms.size),
      ← List.filterMap_append]
    rfl

theorem Arms.nodes_sites : ∀ (arms : Arms) (p : Nat),
    (arms.sites p).filterMap Site.node? = arms.ids
  | .none, _ => rfl
  | .arm _ row more, p => by
    rw [Arms.ids_arm, ← Row.nodes_sites row p, ← Arms.nodes_sites more (p + row.size),
      ← List.filterMap_append]
    rfl

end

theorem Row.mem_ids_iff {r : Row} (p : Nat) {u : NodeId} :
    u ∈ r.ids ↔ ∃ v t, (v, .task t) ∈ r.sites p ∧ t.source = u := by
  rw [← r.nodes_sites p, List.mem_filterMap]
  constructor
  · rintro ⟨⟨v, role⟩, hmem, hu⟩
    obtain ⟨t, rfl, ht⟩ := Site.node?_eq_some_iff.mp hu
    exact ⟨v, t, hmem, ht⟩
  · rintro ⟨v, t, hmem, ht⟩
    exact ⟨(v, .task t), hmem, Site.node?_eq_some_iff.mpr ⟨t, rfl, ht⟩⟩

theorem Row.source_mem_ids {r : Row} {p v : Nat} {t : Task} (h : (v, .task t) ∈ r.sites p) :
    t.source ∈ r.ids := (r.mem_ids_iff p).mpr ⟨v, t, h, rfl⟩

theorem Arms.source_mem_ids {arms : Arms} {p v : Nat} {t : Task}
    (h : (v, .task t) ∈ arms.sites p) : t.source ∈ arms.ids := by
  rw [← arms.nodes_sites p, List.mem_filterMap]
  exact ⟨_, h, rfl⟩

/-- A row without repetitions has one site for each of its nodes. -/
theorem Row.site_unique {r : Row} (hnodup : r.ids.Nodup) {p v v' : Nat} {t t' : Task}
    (h : (v, .task t) ∈ r.sites p) (h' : (v', .task t') ∈ r.sites p)
    (hsource : t.source = t'.source) : v = v' := by
  rw [← r.nodes_sites p, List.Nodup, List.pairwise_filterMap] at hnodup
  -- Two sites of the row that wrap the same node are the same site.
  let agree (s s' : Site) : Prop := ∀ u, s.node? = some u → s'.node? = some u → s = s'
  have hpair : (r.sites p).Pairwise agree := by
    refine hnodup.imp fun hne u hs hs' => ?_
    exact absurd rfl (hne u hs u hs')
  have hback : (r.sites p).Pairwise (flip agree) :=
    hpair.imp fun hagree u hs hs' => (hagree u hs' hs).symm
  have hagree := hpair.forall_of_forall_of_flip (fun _ _ _ _ _ => rfl) hback h h'
  exact congrArg Prod.fst (hagree t.source rfl (congrArg some hsource.symm))

section

variable {w : Workflow} {g : Graph} {r : Row} (hs : g.Shows r)
include hs

theorem Graph.Shows.child_iff {a b : Nat} :
    g.Child a b ↔ ∃ e ∈ r.allWires, e.target = b ∧ e.port.source = a := by
  constructor
  · rintro ⟨x, hx, hb⟩
    obtain ⟨arc, harc, rfl⟩ := List.mem_map.mp hb
    obtain ⟨i, hi⟩ := List.mem_iff_getElem?.mp harc
    exact ⟨⟨⟨a, i, arc.condition⟩, arc.target⟩, (hs.wire_iff _).mp ⟨x, hx, hi⟩, rfl, rfl⟩
  · rintro ⟨e, he, rfl, rfl⟩
    obtain ⟨x, hx, harc⟩ := (hs.wire_iff e).mpr he
    exact ⟨x, hx, List.mem_map.mpr ⟨e.arc, List.mem_of_getElem? harc, rfl⟩⟩

theorem Graph.Shows.wraps_iff {v : Nat} {u : NodeId} :
    g.Wraps v u ↔ ∃ t, (v, .task t) ∈ r.sites 2 ∧ t.source = u := by
  constructor
  · rintro ⟨x, t, hx, hrole, ht⟩
    have hmem := Row.mem_allSites.mp ((hs.role_iff v _).mp ⟨x, hx, hrole⟩)
    simp only [reduceCtorEq, and_false, false_or, or_false] at hmem
    exact ⟨t, hmem, ht⟩
  · rintro ⟨t, hmem, ht⟩
    obtain ⟨x, hx, hrole⟩ :=
      (hs.role_iff v _).mpr (Row.mem_allSites_of_mem_sites hmem)
    exact ⟨x, t, hx, hrole, ht⟩

/-- Every node is wrapped by one vertex. -/
theorem Graph.Shows.exists_wraps (hw : w.Sound) (ho : Row.Outlines w r) {u : Nat}
    (hu : u < w.size) : ∃ a, ∀ v, g.Wraps v u ↔ v = a := by
  have hids : u ∈ r.ids ∧ r.ids.Nodup := by
    cases ho with
    | mk hb ht hnodup => exact ⟨(Outline.mem_ids_append hw hb ht u).mpr hu, hnodup⟩
  obtain ⟨a, t, ha, rfl⟩ := (r.mem_ids_iff 2).mp hids.1
  refine ⟨a, fun v => ⟨fun hv => ?_, fun hv => hv ▸ hs.wraps_iff.mpr ⟨t, ha, rfl⟩⟩⟩
  obtain ⟨t', hv, hsource⟩ := hs.wraps_iff.mp hv
  exact Row.site_unique hids.2 hv ha hsource

end
end BatchFlow

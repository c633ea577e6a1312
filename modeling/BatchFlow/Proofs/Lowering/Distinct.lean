import BatchFlow.Proofs.Lowering.Shape

/-!
# No two vertices share a name

Tasks have the names of their nodes, which the workflow keeps apart, and a generated name is neither
given nor reserved nor generated twice. A workflow that is lowered gives no reserved name itself.
-/

namespace BatchFlow

/-- The names of a graph for the workflow, and those of the handlers, are told apart. -/
structure Graph.NamesApart (g : Graph) (w : Workflow) : Prop where
  nodup : (g.vertices.map Vertex.name).Nodup
  unreserved : ∀ name ∈ w.givenNames, name ∉ Workflow.reservedNames
  /-- Only a task has a name that the workflow gives. -/
  new : ∀ x ∈ g.vertices, x.role.isTask = false → x.name ∉ w.givenNames

section

variable {w : Workflow} {r : Row}

theorem Workflow.name_mem_givenNames {n : Node} (hn : n ∈ w.nodes) : n.name ∈ w.givenNames :=
  List.mem_flatMap.mpr ⟨n, hn, List.mem_cons_self⟩

theorem Workflow.handler_mem_givenNames {n : Node} {h : Handler} (hn : n ∈ w.nodes)
    (hh : n.handler = some h) : h.name ∈ w.givenNames := by
  refine List.mem_flatMap.mpr ⟨n, hn, List.mem_cons_of_mem _ ?_⟩
  simp [hh]

theorem Row.laidOut_sublist (r : Row) (taken : List String) :
    (r.laidOut taken).Sublist (r.stations taken) :=
  (List.sublist_append_right ..).trans (List.sublist_append_left ..)

theorem Row.exists_node {r : Row} {taken : List String} {v : Nat} {st : Station}
    (hv : (r.stations taken)[v]? = some st) (htask : st.2.isTask = true) :
    ∃ n ∈ r.nodes, st = n.station ∧ (v, .task n.task) ∈ r.sites 2 := by
  obtain ⟨t, ht⟩ : ∃ t, st.2 = .task t := by
    cases hrole : st.2 <;> simp_all [Role.isTask]
  have hsite := Row.mem_allSites_of_stations hv
  obtain ⟨n, hn, rfl⟩ := Row.task_of_station (List.mem_of_getElem? hv) ht
  refine ⟨n, hn, rfl, ?_⟩
  rcases mem_allSites.mp hsite with ⟨-, h⟩ | ⟨-, h⟩ | h | ⟨-, h⟩
  · cases h
  · cases h
  · exact h
  · cases h

/-- Two tasks of one name would be the same node, which has one vertex. -/
theorem Row.Outlines.tasks_apart (hw : w.Sound) (ho : Row.Outlines w r) (taken : List String) :
    (r.stations taken).Pairwise fun a b => a.2.isTask = true → b.2.isTask = true → a.1 ≠ b.1 := by
  refine List.pairwise_iff_getElem.mpr fun i j hi hj hlt ha hb hsame => ?_
  obtain ⟨m, hm, hma, hmsite⟩ := Row.exists_node (List.getElem?_eq_getElem hi) ha
  obtain ⟨n, hn, hnb, hnsite⟩ := Row.exists_node (List.getElem?_eq_getElem hj) hb
  have hname : m.name = n.name := by
    rw [hma, hnb] at hsame
    exact hsame
  have hnode : m = n := List.inj_on_of_nodup_map hw.names_nodup ((ho.mem_nodes_iff hw).mp hm)
    ((ho.mem_nodes_iff hw).mp hn) hname
  have hij : i = j := Row.site_unique ho.nodup hmsite hnsite (by rw [hnode])
  omega

/-- The name of a task is given, that of another vertex is neither given nor reserved. -/
def Workflow.NameFits (w : Workflow) (st : Station) : Prop :=
  if st.2.isTask then st.1 ∈ w.givenNames
  else st.1 ∉ w.givenNames ∧ st.1 ∉ Workflow.reservedNames

theorem Row.Outlines.nameFits (hw : w.Sound) (ho : Row.Outlines w r) :
    ∀ st ∈ r.laidOut w.givenNames, w.NameFits st := by
  obtain ⟨htasks, -, hnew⟩ := r.edits_named w.givenNames
  intro st hst
  unfold Workflow.NameFits
  by_cases htask : st.2.isTask = true
  · obtain ⟨n, hn, rfl⟩ := htasks st hst htask
    rw [if_pos htask]
    exact Workflow.name_mem_givenNames ((ho.mem_nodes_iff hw).mp hn)
  · rw [if_neg htask]
    refine hnew st.1 (List.mem_map_of_mem (List.mem_filter.mpr ⟨hst, ?_⟩))
    rw [Bool.not_eq_true']
    exact Bool.eq_false_of_not_eq_true htask

theorem Row.Outlines.laidOut_nodup (hw : w.Sound) (ho : Row.Outlines w r) :
    ((r.laidOut w.givenNames).map Prod.fst).Nodup := by
  have htasks := (ho.tasks_apart hw w.givenNames).sublist (r.laidOut_sublist w.givenNames)
  have hgenerated := (r.edits_named w.givenNames).2.1
  rw [Row.generated, List.Nodup, List.pairwise_map, List.pairwise_filter] at hgenerated
  rw [List.Nodup, List.pairwise_map]
  refine (htasks.and hgenerated).imp_of_mem fun {a b} ha hb h => ?_
  have hfits := ho.nameFits hw a ha
  have hfits' := ho.nameFits hw b hb
  unfold Workflow.NameFits at hfits hfits'
  -- Two tasks, two generated names, or one of each, of which just one is given.
  cases htask : a.2.isTask <;> cases htask' : b.2.isTask <;>
    simp only [htask, htask'] at hfits hfits' h
  · exact h.2 rfl rfl
  · exact fun hsame => hfits.1 (hsame ▸ hfits')
  · exact fun hsame => hfits'.1 (hsame ▸ hfits)
  · exact h.1 trivial trivial

theorem Row.Outlines.names_nodup (hw : w.Sound) (ho : Row.Outlines w r)
    (hfree : ∀ name ∈ w.givenNames, name ∉ Workflow.reservedNames) :
    ((r.stations w.givenNames).map Prod.fst).Nodup := by
  have hplain : ∀ name ∈ (r.laidOut w.givenNames).map Prod.fst, name ∉ Workflow.reservedNames := by
    intro name hname
    obtain ⟨st, hst, rfl⟩ := List.mem_map.mp hname
    have hfits := ho.nameFits hw st hst
    unfold Workflow.NameFits at hfits
    split at hfits
    · exact hfree _ hfits
    · exact hfits.2
  have hperm : ((r.stations w.givenNames).map Prod.fst).Perm
      ((r.laidOut w.givenNames).map Prod.fst ++ Workflow.reservedNames) := by
    rw [stations, List.map_append, List.map_append]
    refine (List.perm_append_comm.append_right _).trans ?_
    rw [List.append_assoc]
    rfl
  have hreserved : Workflow.reservedNames.Nodup := by decide
  rw [hperm.nodup_iff, List.nodup_append']
  exact ⟨ho.laidOut_nodup hw, hreserved, hplain⟩

/-- Vertices that are no tasks have names that neither nodes nor handlers have. -/
theorem Row.Outlines.names_new (hw : w.Sound) (ho : Row.Outlines w r)
    (hfree : ∀ name ∈ w.givenNames, name ∉ Workflow.reservedNames) {st : Station}
    (hst : st ∈ r.stations w.givenNames) (hplain : st.2.isTask = false) :
    st.1 ∉ w.givenNames := by
  have hreserved : st.1 ∈ Workflow.reservedNames → st.1 ∉ w.givenNames :=
    fun hmem hgiven => hfree _ hgiven hmem
  simp only [stations, List.mem_append, List.mem_cons, List.not_mem_nil, or_false] at hst
  rcases hst with ((rfl | rfl) | hst) | rfl
  · exact hreserved (by decide)
  · exact hreserved (by decide)
  · have hfits := ho.nameFits hw st hst
    rw [Workflow.NameFits, hplain, if_neg Bool.false_ne_true] at hfits
    exact hfits.1
  · exact hreserved (by decide)

end

/-- In a lowered graph all names are told apart. -/
theorem Workflow.Sound.names_apart {w : Workflow} (hw : w.Sound) {g : Graph}
    (hg : Graph.ofWorkflow w = .ok g) : g.NamesApart w := by
  obtain ⟨r, ho, rfl⟩ := hw.exists_graph hg
  have hfree := (hw.ofWorkflow_ends.good_of_eq hg).1
  refine ⟨?_, hfree, ?_⟩
  · show ((drawing (r.stations w.givenNames) r.allWires).map Vertex.name).Nodup
    rw [map_name_drawing]
    exact ho.names_nodup hw hfree
  · intro x hx hrole
    obtain ⟨v, hv⟩ := List.mem_iff_getElem?.mp hx
    change (r.graph w.name w.givenNames).get? v = some x at hv
    rw [r.get?_graph] at hv
    obtain ⟨st, hst, rfl⟩ := Option.map_eq_some_iff.mp hv
    exact ho.names_new hw hfree (List.mem_of_getElem? hst) hrole

/-- However the nodes and their handlers are named, the vertices of a lowered graph have names of
their own, and only a task may share its name with a handler. -/
theorem Workflow.Built.lowered_names {w : Workflow} (h : w.Built) {g : Graph}
    (hg : Graph.ofWorkflow w = .ok g) :
    (g.vertices.map Vertex.name).Nodup ∧
      ∀ n ∈ w.nodes, ∀ e : Handler, n.handler = some e → e.name ∉ ["start", "end", "kill"] ∧
        ∀ x ∈ g.vertices, x.role.isTask = false → x.name ≠ e.name := by
  have hapart := h.sound.names_apart hg
  refine ⟨hapart.nodup, fun n hn e he => ?_⟩
  have hgiven := Workflow.handler_mem_givenNames hn he
  constructor
  · exact hapart.unreserved e.name hgiven
  · intro x hx hrole hsame
    exact hapart.new x hx hrole (hsame ▸ hgiven)

/-- Nodes and handlers that take the first names of generated vertices. -/
def Script.imitating : Script :=
  [⟨.shell, [.node (.name "fork_1"), .node (.handler ⟨0, "join_1", .email, {}⟩)]⟩,
    plainNode "join_2" [(0, none)], plainNode "decision_2" [(0, none)],
    ⟨.shell, [.node (.name "decision_1"), .node (.parent 1 none), .node (.parent 2 none),
      .node (.handler ⟨1, "decision_join_1", .email, {}⟩)]⟩,
    plainNode "end_1" [(3, some .otherwise)]]

def Workflow.imitating : Workflow := Script.imitating.workflowOfFirst "imitating"

theorem Workflow.imitating_built : imitating.Built := by
  have hmade : Script.imitating.workflow { name := .ofDefault "imitating", entries := [0] } =
      .ok imitating := rfl
  exact Script.built hmade

def Graph.imitating : Graph :=
  match Graph.ofWorkflow .imitating with
  | .ok g => g
  | .error _ => {}

/-- The generated names begin where those that are taken end. -/
theorem Graph.imitating_names :
    imitating.vertices.map Vertex.name = ["start", "end", "fork_1", "fork_2", "join_3", "join_2",
      "decision_2", "decision_1", "decision_3", "decision_join_2", "end_1", "kill"] ∧
    (imitating.vertices.map Vertex.name).Nodup ∧
    ∀ n ∈ Workflow.imitating.nodes, ∀ e : Handler, n.handler = some e →
      e.name ∉ ["start", "end", "kill"] ∧
        ∀ x ∈ imitating.vertices, x.role.isTask = false → x.name ≠ e.name :=
  ⟨rfl, Workflow.imitating_built.lowered_names (g := imitating) rfl⟩

end BatchFlow

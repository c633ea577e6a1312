import BatchFlow.Proofs.Workflow.Components

/-!
# Whole dags

A workflow that brings in every node of a dag holds the dag as it is: all nodes are collected, so
each one keeps its place. It is refused only if two nodes share a name.
-/

namespace BatchFlow

/-- The workflow that brings in each node of the dag. -/
def Dag.whole (d : Dag) (name : String) : Except BuildError Workflow := do
  let edits : List Workflow.Edit := .name name :: d.nodes.map fun n => .entry n.id
  let draft ← edits.foldlM Workflow.Draft.apply {}
  draft.build d

theorem Workflow.Draft.foldlM_entries (ids : List NodeId) (draft : Draft) :
    (ids.map Edit.entry).foldlM apply draft =
      .ok { draft with entries := draft.entries ++ ids } := by
  induction ids generalizing draft with
  | nil => simp only [List.append_nil]; rfl
  | cons id rest ih =>
    rw [List.map_cons, List.foldlM_cons]
    refine (ih { draft with entries := draft.entries ++ [id] }).trans ?_
    rw [List.append_assoc, List.singleton_append]

/-- A node that every place is kept for stays as it is. -/
theorem Node.moved_of_kept {place : NodeId → NodeId} {n : Node} (hid : place n.id = n.id)
    (hparents : ∀ p ∈ n.parents, place p = p) (hchildren : ∀ v ∈ n.children, place v = v) :
    n.moved place = n := by
  have hplain : ∀ l : List NodeId, (∀ x ∈ l, place x = x) → l.map place = l := fun l hl => by
    simpa using List.map_congr_left hl
  have hbranch : ∀ l : List Branch, (∀ x ∈ l.map Branch.node, place x = x) →
      l.map (fun b => (⟨place b.node, b.condition⟩ : Branch)) = l := fun l hl => by
    have hkept : ∀ b ∈ l, (⟨place b.node, b.condition⟩ : Branch) = b := fun b hb => by
      rw [hl b.node (List.mem_map_of_mem hb)]
    simpa using List.map_congr_left hkept
  rw [parents, List.forall_mem_append] at hparents
  rw [children, List.forall_mem_append] at hchildren
  simp only [moved, hid, hplain _ hparents.1, hplain _ hchildren.1, hbranch _ hparents.2,
    hbranch _ hchildren.2]

namespace Dag.Sound

variable {d : Dag} (h : d.Sound)
include h

theorem connected_range : d.connected (List.range d.size) = List.range d.size := by
  refine List.filter_eq_self.mpr fun a ha => ?_
  have hmem : a ∈ d.connected (List.range d.size) :=
    h.mem_connected_iff.mpr ⟨List.mem_range.mp ha, a, ha, .refl⟩
  exact (List.mem_filter.mp hmem).2

theorem subset_range : d.subset (List.range d.size) = d := by
  have hkept : ∀ x < d.size, (List.range d.size).idxOf x = x := fun x hx => by
    have hx' : x < (List.range d.size).length := by rwa [List.length_range]
    have hidx := List.nodup_range.idxOf_getElem x hx'
    rwa [List.getElem_range] at hidx
  have hmoved : ∀ (k : Nat) n, d.get? k = some n → n.moved (List.range d.size).idxOf = n := by
    intro k n hn
    refine Node.moved_of_kept (hkept _ ?_) (fun p hp => hkept p ?_) fun v hv => hkept v ?_
    · rw [h.id_eq k n hn]
      exact lt_size hn
    · exact h.lt_of_adjacent ⟨n, hn, .inl hp⟩
    · exact h.lt_of_adjacent ⟨n, hn, .inr hv⟩
  refine congrArg Dag.mk (List.ext_getElem? fun k => Option.ext fun m => ?_)
  have hcopy : (d.subset (d.connected (List.range d.size))).get? k = some m ↔ _ := h.get?_copy_iff
  rw [h.connected_range] at hcopy
  refine hcopy.trans ⟨?_, fun hm => ?_⟩
  · rintro ⟨a, n, ha, hn, rfl⟩
    obtain ⟨hk, rfl⟩ := List.getElem?_eq_some_iff.mp ha
    rw [List.getElem_range] at hn
    exact hn.trans (congrArg some (hmoved k n hn).symm)
  · exact ⟨k, m, List.getElem?_range (lt_size hm), hm, (hmoved k m hm).symm⟩

/-- If names are distinct, the workflow of all nodes holds the dag. -/
theorem exists_whole (hnames : (d.nodes.map Node.name).Nodup) (name : String) :
    ∃ w, d.whole name = .ok w ∧ w.dag = d := by
  let named : Workflow.Draft := { name := ⟨some name, true⟩ }
  have hfirst : Workflow.Draft.apply {} (.name name) = .ok named := rfl
  have hentries : d.nodes.map (fun n => Workflow.Edit.entry n.id) =
      (List.range d.size).map Workflow.Edit.entry := by
    rw [← h.ids_eq, List.map_map]
    rfl
  have hedits : (Workflow.Edit.name name :: d.nodes.map fun n => .entry n.id).foldlM
      Workflow.Draft.apply {} = .ok { named with entries := List.range d.size } := by
    rw [List.foldlM_cons, hfirst, hentries]
    exact Workflow.Draft.foldlM_entries _ named
  have hrepeated : d.repeatedName? = none := by
    refine Option.eq_none_iff_forall_ne_some.mpr fun r hr => ?_
    obtain ⟨k, -, -, -, hk, -⟩ := repeatedName?_go_eq_some_iff.mp hr
    obtain ⟨m, hm, j, n, hj, hn, hname⟩ := repeatedAt_nil_iff.mp hk
    have hlt : j < (d.nodes.map Node.name).length := by
      rw [List.length_map]
      exact Nat.lt_trans hj (lt_size hm)
    refine Nat.ne_of_lt hj ((List.getElem?_inj hlt hnames).mp ?_)
    rw [List.getElem?_map, List.getElem?_map, hn, hm, Option.map_some, Option.map_some, hname]
  refine ⟨_, bind_eq_ok_iff.mpr ⟨_, hedits, (Workflow.Draft.build_eq_ok_iff rfl).mpr
    ⟨?_, ?_, rfl⟩⟩, ?_⟩
  · simp [List.find?_eq_none]
  · rwa [h.connected_range, h.subset_range]
  · exact (congrArg d.subset h.connected_range).trans h.subset_range

end Dag.Sound
end BatchFlow

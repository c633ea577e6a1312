import BatchFlow.Proofs.Lowering.Shape
import BatchFlow.Proofs.Outline.Frames

/-!
# How many blocks there are

A place opens a decision if it has conditional ways out, and a fork if two or more of its plain ways
out do not begin where they merge. In the graph of an outline there are as many blocks of each sort
as there are places that open one, as many closings as openings, and one task for each node.
-/

namespace BatchFlow

/-- What opens behind a place. -/
def Workflow.opens (w : Workflow) (a : Place) : Option Role :=
  if w.choices a ≠ [] then some .decision
  else if 2 ≤ (w.branches a).length then some .fork
  else none

/-! ## Blocks of a row -/

section Traces

variable {w : Workflow} {role : Role}

theorem Workflow.opens_of_choices {a : Place} (h : w.choices a ≠ []) :
    w.opens a = some .decision := if_pos h

theorem Workflow.opens_of_plain {a : Place} (h : w.choices a = []) :
    w.opens a = if 2 ≤ (w.branches a).length then some .fork else none := by
  rw [Workflow.opens, if_neg (not_not_intro h)]

theorem Workflow.opens_eq_decision_iff {a : Place} :
    w.opens a = some .decision ↔ w.choices a ≠ [] := by
  constructor
  · rintro h hnil
    rw [Workflow.opens_of_plain hnil] at h
    split at h <;> cases h
  · exact Workflow.opens_of_choices

theorem Workflow.Sound.opens_eq_fork_iff (hw : w.Sound) {a : Place} :
    w.opens a = some .fork ↔ 2 ≤ ((w.plain a).filter (· ≠ w.mergeOf a)).length := by
  by_cases h : w.choices a = []
  · rw [Workflow.opens_of_plain h, Workflow.branches, if_pos h, List.length_map]
    split <;> simp_all
  · rw [Workflow.opens_of_choices h, hw.plain_eq_nil_of_choices h]
    simp

mutual

/-- The blocks of a row are those that its nodes open. -/
theorem Row.Traces.countP_blocks (hw : w.Sound) {id stop : NodeId} {r : Row} :
    Row.Traces w id stop r → r.blocks.countP (·.1 = role) =
      r.nodes.countP fun n => w.opens (.node n.id) = some role
  | .done _ => rfl
  | @Row.Traces.task _ id stop n inner next _ hn hb ht => by
    have hinner := Row.Bridges.countP_blocks hw hb
    have hnext := Row.Traces.countP_blocks hw ht
    obtain rfl : id = n.id := (hw.dag.id_eq id n hn).symm
    rw [Row.blocks, Row.blocks_append, List.countP_append, hinner, hnext, Row.nodes,
      Row.nodes_append, List.countP_cons, List.countP_append]
    simp only [decide_eq_true_eq]
    omega

theorem Row.Bridges.countP_blocks (hw : w.Sound) {a : Place} {r : Row} :
    Row.Bridges w a r → r.blocks.countP (·.1 = role) =
      (if w.opens a = some role then 1 else 0) +
        r.nodes.countP fun n => w.opens (.node n.id) = some role
  | .skip hplain hnil => by
    have hopens : w.opens a = none := by rw [Workflow.opens_of_plain hplain, hnil]; rfl
    rw [hopens]
    rfl
  | .single hplain hone ht => by
    have hopens : w.opens a = none := by rw [Workflow.opens_of_plain hplain, hone]; rfl
    rw [hopens, if_neg (by simp), Row.Traces.countP_blocks hw ht, Nat.zero_add]
  | .fork hplain htwo ht => by
    have hopens : w.opens a = some .fork := by rw [Workflow.opens_of_plain hplain, if_pos htwo]
    have harms := Arms.Traces.countP_blocks hw ht
    simp only [Row.blocks, Row.nodes, List.append_nil, List.countP_cons, harms, hopens,
      Option.some.injEq, decide_eq_true_eq]
    omega
  | .decision hdefault ht => by
    obtain ⟨b, hb, -⟩ := hdefault
    have hopens : w.opens a = some .decision := Workflow.opens_of_choices (List.ne_nil_of_mem hb)
    have harms := Arms.Traces.countP_blocks hw ht
    simp only [Row.blocks, Row.nodes, List.append_nil, List.countP_cons, harms, hopens,
      Option.some.injEq, decide_eq_true_eq]
    omega

theorem Arms.Traces.countP_blocks (hw : w.Sound) {merge : NodeId}
    {heads : List (NodeId × Option Condition)} {arms : Arms} :
    Arms.Traces w merge heads arms → arms.blocks.countP (·.1 = role) =
      arms.nodes.countP fun n => w.opens (.node n.id) = some role
  | .none _ => rfl
  | .arm ht hmore => by
    have hrow := Row.Traces.countP_blocks hw ht
    have hrest := Arms.Traces.countP_blocks hw hmore
    rw [Arms.blocks, List.countP_append, hrow, hrest, Arms.nodes, List.countP_append]

end

/-- An outline holds each node of the workflow once. -/
theorem Row.Outlines.nodes_perm (hw : w.Sound) {r : Row} (ho : Row.Outlines w r) :
    r.nodes.Perm w.nodes := by
  have hrow : r.nodes.Nodup := .of_map Node.id ho.nodup
  have hflow : w.nodes.Nodup := .of_map Node.name hw.names_nodup
  exact (List.perm_ext_iff_of_nodup hrow hflow).mpr fun _ => ho.mem_nodes_iff hw

theorem Row.Outlines.countP_blocks (hw : w.Sound) {r : Row} (ho : Row.Outlines w r) :
    r.blocks.countP (·.1 = role) = (if w.opens .source = some role then 1 else 0) +
      w.nodes.countP fun n => w.opens (.node n.id) = some role := by
  rw [← (ho.nodes_perm hw).countP_eq]
  cases ho with
  | mk hb ht _ =>
    rw [Row.blocks_append, List.countP_append, hb.countP_blocks hw, ht.countP_blocks hw,
      Row.nodes_append, List.countP_append, Nat.add_assoc]

end Traces

/-! ## Sites of a row -/

mutual

/-- Each block has one opening and one closing. -/
theorem Row.countP_sites {role : Role} (hopen : role.Opens) : ∀ (r : Row) (p : Nat),
    (r.sites p).countP (·.2 = role) = r.blocks.countP (·.1 = role) ∧
      (r.sites p).countP (·.2 = role.closing) = r.blocks.countP (·.1 = role)
  | .done, _ => ⟨rfl, rfl⟩
  | .task _ next, p => by
    have hnext := Row.countP_sites hopen next (p + 1)
    rcases hopen with rfl | rfl <;>
      simpa [Row.sites, Row.blocks, Role.closing, List.countP_cons] using hnext
  | .fork arms next, p
  | .decision arms next, p => by
    have harms := Arms.countP_sites hopen arms (p + 2)
    have hnext := Row.countP_sites hopen next (p + 2 + arms.size)
    rcases hopen with rfl | rfl <;>
      simp only [Row.sites, Row.blocks, List.countP_cons, List.countP_append, harms, hnext] <;>
      simp [Role.closing]

theorem Arms.countP_sites {role : Role} (hopen : role.Opens) : ∀ (arms : Arms) (p : Nat),
    (arms.sites p).countP (·.2 = role) = arms.blocks.countP (·.1 = role) ∧
      (arms.sites p).countP (·.2 = role.closing) = arms.blocks.countP (·.1 = role)
  | .none, _ => ⟨rfl, rfl⟩
  | .arm _ row more, p => by
    have hrow := Row.countP_sites hopen row p
    have hmore := Arms.countP_sites hopen more (p + row.size)
    simp only [Arms.sites, Arms.blocks, List.countP_append, hrow, hmore, and_self]

end

/-! ## Vertices of a graph -/

theorem Row.map_role_graph (r : Row) (name : String) (taken : List String) :
    (r.graph name taken).vertices.map Vertex.role = r.allSites.map Prod.snd := by
  have hsites : (sitesOf (r.stations taken) 0).map Prod.snd = (r.stations taken).map Prod.snd := by
    rw [sitesOf, List.map_map]
    show (List.map (Prod.snd ∘ Prod.fst) _) = _
    rw [← List.map_map, List.zipIdx_map_fst]
  rw [← r.sitesOf_stations taken, hsites]
  refine List.ext_getElem? fun v => ?_
  rw [List.getElem?_map, List.getElem?_map, Row.graph, getElem?_drawing, Option.map_map]
  rfl

/-- Roles that do not stand at the ends are counted by the sites of the row. -/
theorem Row.countP_graph (r : Row) (name : String) (taken : List String) {f : Role → Bool}
    (hstart : f .start = false) (hfinish : f .finish = false)
    (hkill : f .kill = false) :
    (r.graph name taken).vertices.countP (f ·.role) = (r.sites 2).countP (f ·.2) := by
  have hcount : (r.graph name taken).vertices.countP (f ·.role) =
      ((r.graph name taken).vertices.map Vertex.role).countP f := by
    rw [List.countP_map]
    rfl
  rw [hcount, r.map_role_graph, List.countP_map, allSites]
  simp [Function.comp_def, hstart, hfinish, hkill]

/-- Each block has one vertex that opens it and one that closes it. -/
theorem Row.countP_blocks_graph (r : Row) (name : String) (taken : List String) {role : Role}
    (hopen : role.Opens) :
    (r.graph name taken).vertices.countP (·.role = role) = r.blocks.countP (·.1 = role) ∧
      (r.graph name taken).vertices.countP (·.role = role.closing) =
        r.blocks.countP (·.1 = role) := by
  obtain ⟨hopening, hclosing⟩ := r.countP_sites hopen 2
  rw [← hopening]
  have hopenings := r.countP_graph name taken (f := (· = role))
  have hclosings := r.countP_graph name taken (f := (· = role.closing))
  rcases hopen with rfl | rfl
  · exact ⟨hopenings rfl rfl rfl, (hclosings rfl rfl rfl).trans (hclosing.trans hopening.symm)⟩
  · exact ⟨hopenings rfl rfl rfl, (hclosings rfl rfl rfl).trans (hclosing.trans hopening.symm)⟩

namespace Row.Outlines

variable {w : Workflow} {r : Row} (hw : w.Sound) (ho : Row.Outlines w r) (name : String)
  (taken : List String)
include hw ho

/-- There is an opening for each place that opens a block. -/
theorem countP_opening {role : Role} (hopen : role.Opens) :
    (r.graph name taken).vertices.countP (·.role = role) =
      (if w.opens .source = some role then 1 else 0) +
        w.nodes.countP fun n => w.opens (.node n.id) = some role := by
  rw [(r.countP_blocks_graph name taken hopen).1, ho.countP_blocks hw]

end Row.Outlines
end BatchFlow

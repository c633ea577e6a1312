import BatchFlow.Graph
import BatchFlow.Proofs.Outcome
import Mathlib.Data.List.Basic

/-!
# Drawings

A graph that edits make can be written down at once. A drawing lists stations, which become the
vertices in their order, and wires; each vertex finds its edges among the wires.

Edits draw stations and wires when they add them in this order and only connect what was added
before. If no vertex of the whole drawing has more edges than its role admits, then no edit on the
way was refused, because a vertex has fewer edges while the drawing is in the making.
-/

namespace BatchFlow

/-- An edge that has no target yet, with its place among the edges that leave the source. Ids are
plain numbers here because the positions of ports and wires are what proofs calculate with. -/
structure Port where
  source : Nat
  index : Nat
  condition : Option Condition

/-- An edge with its place among the edges that leave its source. -/
structure Wire where
  port : Port
  target : Nat

def Wire.arc (e : Wire) : Arc := ⟨e.target, e.port.condition⟩

/-- What a vertex is before it has edges: a name and a role. -/
abbrev Station := String × Role

def wiresFrom (ws : List Wire) (v : VertexId) : List Wire := ws.filter (·.port.source = v)

def wiresInto (ws : List Wire) (v : VertexId) : List Wire := ws.filter (·.target = v)

/-- The vertex that a station becomes. -/
def vertexAt (ws : List Wire) (id : VertexId) (st : Station) : Vertex where
  id
  name := st.1
  role := st.2
  parents := (wiresInto ws id).map (·.port.source)
  arcs := (wiresFrom ws id).map Wire.arc

def drawing (sts : List Station) (ws : List Wire) : List Vertex := sts.mapIdx (vertexAt ws)

/-- The wires connect stations. -/
def WiresBelow (ws : List Wire) (size : Nat) : Prop :=
  ∀ e ∈ ws, e.port.source < size ∧ e.target < size

/-- The role has room for so many parents, and for children under these conditions. -/
def Role.Admits (role : Role) (parents : Nat) (conditions : List (Option Condition)) : Prop :=
  (∀ max, role.maxParents? = some max → parents ≤ max) ∧
  match role with
  | .finish | .kill => conditions = []
  | .decision =>
      (∀ c ∈ conditions, c.isSome = true) ∧
        conditions.countP (·.any Condition.isDefault) ≤ 1
  | .fork => ∀ c ∈ conditions, c = none
  | .start | .join | .decisionJoin | .task _ =>
      conditions.length ≤ 1 ∧ ∀ c ∈ conditions, c = none

/-- Every station has room for its wires. -/
def Fits (sts : List Station) (ws : List Wire) : Prop :=
  ∀ (v : VertexId) (st : Station), sts[v]? = some st →
    st.2.Admits (wiresInto ws v).length ((wiresFrom ws v).map (·.port.condition))

/-- The station that an edit adds. -/
def Graph.Edit.station? : Graph.Edit → Option Station
  | addDecision name => some (name, .decision)
  | addFork name => some (name, .fork)
  | addJoin name => some (name, .join)
  | addDecisionJoin name => some (name, .decisionJoin)
  | addTask name task => some (name, .task task)
  | _ => none

def Graph.Edit.ofWire (e : Wire) : Graph.Edit := .connect e.port.source e.target e.port.condition

/-- Behind a given number of vertices, the edits add these stations and wires. -/
inductive Draws : Nat → List Graph.Edit → List Station → List Wire → Prop
  | nil (size : Nat) : Draws size [] [] []
  | station {size : Nat} {edit : Graph.Edit} {edits : List Graph.Edit} {st : Station}
      {sts : List Station} {ws : List Wire} : edit.station? = some st →
      Draws (size + 1) edits sts ws → Draws size (edit :: edits) (st :: sts) ws
  | wire {size : Nat} {e : Wire} {edits : List Graph.Edit} {sts : List Station}
      {ws : List Wire} : e.port.source < size → e.target < size →
      Draws size edits sts ws → Draws size (.ofWire e :: edits) sts (e :: ws)

theorem Draws.append {size : Nat} {edits edits' : List Graph.Edit} {sts sts' : List Station}
    {ws ws' : List Wire} (h : Draws size edits sts ws)
    (h' : Draws (size + sts.length) edits' sts' ws') :
    Draws size (edits ++ edits') (sts ++ sts') (ws ++ ws') := by
  induction h with
  | nil => exact h'
  | @station size _ _ _ sts _ hst _ ih =>
    refine .station hst (ih ?_)
    have hsize : size + 1 + sts.length = size + (sts.length + 1) := by omega
    exact hsize ▸ h'
  | wire hs ht _ ih => exact .wire hs ht (ih h')

/-- The stations that edits draw are those that the edits add. -/
theorem Draws.filterMap_station? {size : Nat} {edits : List Graph.Edit} {sts : List Station}
    {ws : List Wire} (h : Draws size edits sts ws) :
    edits.filterMap Graph.Edit.station? = sts := by
  induction h with
  | nil => rfl
  | station hst _ ih => rw [List.filterMap_cons_some hst, ih]
  | wire _ _ _ ih => exact ih

section Drawing

variable {sts sts' : List Station} {ws ws' : List Wire} {g : Graph}

@[simp] theorem wiresFrom_append (v : VertexId) :
    wiresFrom (ws ++ ws') v = wiresFrom ws v ++ wiresFrom ws' v := List.filter_append ..

@[simp] theorem wiresInto_append (v : VertexId) :
    wiresInto (ws ++ ws') v = wiresInto ws v ++ wiresInto ws' v := List.filter_append ..

theorem wiresFrom_cons (e : Wire) (v : VertexId) :
    wiresFrom (e :: ws) v = (if e.port.source = v then [e] else []) ++ wiresFrom ws v := by
  by_cases h : e.port.source = v <;> simp [wiresFrom, h]

theorem wiresInto_cons (e : Wire) (v : VertexId) :
    wiresInto (e :: ws) v = (if e.target = v then [e] else []) ++ wiresInto ws v := by
  by_cases h : e.target = v <;> simp [wiresInto, h]

@[simp] theorem length_drawing : (drawing sts ws).length = sts.length := List.length_mapIdx

theorem getElem?_drawing (v : Nat) : (drawing sts ws)[v]? = sts[v]?.map (vertexAt ws v) :=
  List.getElem?_mapIdx

theorem map_name_drawing : (drawing sts ws).map Vertex.name = sts.map Prod.fst := by
  refine List.ext_getElem? fun v => ?_
  rw [List.getElem?_map, List.getElem?_map, getElem?_drawing, Option.map_map]
  rfl

/-! ## Room for one more edge -/

theorem Role.Admits.checkChild {v : Vertex} {parents : Nat} {c : Option Condition}
    {later : List (Option Condition)}
    (h : v.role.Admits parents (v.arcs.map Arc.condition ++ c :: later)) :
    v.checkChild c = .ok () := by
  obtain ⟨-, h⟩ := h
  unfold Vertex.checkChild
  cases hr : v.role with
  | finish => simp [hr] at h
  | kill => simp [hr] at h
  | fork =>
    simp only [hr] at h
    rw [h c (by simp)]
  | decision =>
    simp only [hr] at h
    cases c with
    | none => simpa using h.1 none (by simp)
    | some c =>
      have hroom : ¬ (c.isDefault = true ∧ v.hasDefault = true) := by
        rintro ⟨hc, hv⟩
        have hpos : 0 < (v.arcs.map Arc.condition).countP (·.any Condition.isDefault) := by
          obtain ⟨a, ha, hd⟩ := List.any_eq_true.mp hv
          exact List.countP_pos_iff.mpr ⟨a.condition, List.mem_map_of_mem ha, hd⟩
        have hcount := h.2
        rw [List.countP_append, List.countP_cons_of_pos (by simpa using hc)] at hcount
        omega
      simp only [Bool.and_eq_true, hroom, if_false]
  | _ =>
    simp only [hr, List.length_append, List.length_map, List.length_cons] at h
    have hnil : v.arcs = [] := List.eq_nil_of_length_eq_zero (by omega)
    rw [h.2 c (by simp)]
    simp [hnil]

theorem Role.Admits.attach {v : Vertex} {parents : Nat} {a : Arc}
    {later : List (Option Condition)}
    (h : v.role.Admits parents (v.arcs.map Arc.condition ++ a.condition :: later)) :
    v.attach a = .ok { v with arcs := v.arcs ++ [a] } := by
  obtain ⟨-, h⟩ := h
  unfold Vertex.attach
  cases hr : v.role with
  | finish => simp [hr] at h
  | kill => simp [hr] at h
  | fork =>
    simp only [hr] at h
    rw [h a.condition (by simp)]
  | decision =>
    simp only [hr] at h
    cases hc : a.condition with
    | none =>
      have hsome := h.1 a.condition (by simp)
      rw [hc] at hsome
      cases hsome
    | some c => rfl
  | _ =>
    simp only [hr, List.length_append, List.length_map, List.length_cons] at h
    have hnil : v.arcs = [] := List.eq_nil_of_length_eq_zero (by omega)
    rw [h.2 a.condition (by simp)]
    simp [hnil]

theorem Role.Admits.checkParent {v : Vertex} {parents : Nat} {conditions : List (Option Condition)}
    (h : v.role.Admits parents conditions) (hlt : v.parents.length < parents) :
    v.checkParent = .ok () := by
  unfold Vertex.checkParent
  cases hm : v.role.maxParents? with
  | none => rfl
  | some max =>
    have hle := h.1 max hm
    cases max with
    | zero => omega
    | succ max =>
      simp only [Nat.lt_of_lt_of_le hlt hle, if_true]

/-! ## One edit -/

theorem Fits.left (h : Fits (sts ++ sts') ws) : Fits sts ws := by
  intro v st hv
  have hlt : v < sts.length := (List.getElem?_eq_some_iff.mp hv).1
  refine h v st ?_
  rw [List.getElem?_append_left hlt]
  exact hv

theorem WiresBelow.append (h : WiresBelow ws sts.length) (h' : WiresBelow ws' sts.length) :
    WiresBelow (ws ++ ws') sts.length := by
  intro e he
  rcases List.mem_append.mp he with he | he
  · exact h e he
  · exact h' e he

theorem drawing_concat (h : WiresBelow ws sts.length) (st : Station) :
    drawing (sts ++ [st]) ws =
      drawing sts ws ++ [{ id := sts.length, name := st.1, role := st.2 }] := by
  have hfrom : wiresFrom ws sts.length = [] := by
    refine List.filter_eq_nil_iff.mpr fun e he => ?_
    have := (h e he).1
    simpa using Nat.ne_of_lt this
  have hinto : wiresInto ws sts.length = [] := by
    refine List.filter_eq_nil_iff.mpr fun e he => ?_
    have := (h e he).2
    simpa using Nat.ne_of_lt this
  simp [drawing, vertexAt, hfrom, hinto]

theorem push_drawing (hg : g.vertices = drawing sts ws) (h : WiresBelow ws sts.length)
    (st : Station) : g.push st.1 st.2 = { g with vertices := drawing (sts ++ [st]) ws } := by
  rw [drawing_concat h]
  simp [Graph.push, Graph.size, hg]

/-- The two ends of a new wire change, and nothing else does. -/
theorem drawing_wire (e : Wire) :
    drawing sts (ws ++ [e]) =
      ((drawing sts ws).modify e.port.source fun v => { v with arcs := v.arcs ++ [e.arc] }).modify
        e.target fun v => { v with parents := v.parents ++ [e.port.source] } := by
  refine List.ext_getElem? fun v => ?_
  rw [List.getElem?_modify, List.getElem?_modify, getElem?_drawing, getElem?_drawing]
  cases sts[v]? with
  | none => rfl
  | some st =>
    by_cases hs : e.port.source = v <;> by_cases ht : e.target = v <;>
      simp [vertexAt, wiresFrom, wiresInto, hs, ht]

theorem connect_drawing (hg : g.vertices = drawing sts ws) {e : Wire}
    (hs : e.port.source < sts.length) (ht : e.target < sts.length)
    (hfit : Fits sts (ws ++ e :: ws')) :
    g.perform (.ofWire e) = .ok { g with vertices := drawing sts (ws ++ [e]) } := by
  have hvertex : ∀ v : Nat, v < sts.length → ∃ st, sts[v]? = some st ∧
      g.vertex v = .ok (vertexAt ws v st) := by
    intro v hv
    refine ⟨sts[v], List.getElem?_eq_getElem hv, ?_⟩
    simp [Graph.vertex, Graph.get?, hg, getElem?_drawing, List.getElem?_eq_getElem hv]
  obtain ⟨source, hsource, hparent⟩ := hvertex _ hs
  obtain ⟨target, htarget, hchild⟩ := hvertex _ ht
  have hroom : (vertexAt ws e.port.source source).role.Admits
      (wiresInto (ws ++ e :: ws') e.port.source).length
      ((vertexAt ws e.port.source source).arcs.map Arc.condition ++ e.arc.condition ::
        (wiresFrom ws' e.port.source).map (·.port.condition)) := by
    have h := hfit _ _ hsource
    rw [wiresFrom_append, wiresFrom_cons, if_pos rfl] at h
    simpa [vertexAt, Wire.arc, Function.comp_def] using h
  have hinto : (vertexAt ws e.target target).parents.length <
      (wiresInto (ws ++ e :: ws') e.target).length := by
    rw [wiresInto_append, wiresInto_cons, if_pos rfl]
    simp [vertexAt]
  have hset : (drawing sts ws).set e.port.source { vertexAt ws e.port.source source with
      arcs := (vertexAt ws e.port.source source).arcs ++ [e.arc] } =
      (drawing sts ws).modify e.port.source fun v => { v with arcs := v.arcs ++ [e.arc] } := by
    rw [List.modify_eq_set_getElem?, getElem?_drawing, hsource]
    rfl
  have hcheck := hroom.checkChild
  have hattach := hroom.attach
  have hcheck' : (vertexAt ws e.target target).checkParent = .ok () :=
    Role.Admits.checkParent (hfit _ _ htarget) hinto
  simp only [Graph.perform, Graph.Edit.ofWire, Graph.connect, Graph.link, hparent, hchild, bind,
    Except.bind, hcheck', pure, Except.pure]
  rw [show e.port.condition = e.arc.condition from rfl, hcheck]
  simp only
  rw [show (⟨e.target, e.arc.condition⟩ : Arc) = e.arc from rfl, hattach]
  simp only [hg, hset, drawing_wire]

/-! ## All edits -/

theorem perform_station {edit : Graph.Edit} {st : Station} (h : edit.station? = some st) :
    g.perform edit = .ok (g.push st.1 st.2) := by
  cases edit <;> simp only [Graph.Edit.station?, Option.some.injEq, reduceCtorEq] at h <;>
    subst h <;> rfl

theorem performAll_cons (edit : Graph.Edit) (edits : List Graph.Edit) :
    g.performAll (edit :: edits) = g.perform edit >>= fun g' => g'.performAll edits :=
  List.foldlM_cons

theorem performAll_append (edits edits' : List Graph.Edit) :
    g.performAll (edits ++ edits') = g.performAll edits >>= fun g' => g'.performAll edits' :=
  List.foldlM_append

/-- Edits of a drawing that fits are all performed. -/
theorem Draws.performAll {edits : List Graph.Edit} (h : Draws sts.length edits sts' ws')
    (hg : g.vertices = drawing sts ws) (hw : WiresBelow ws sts.length)
    (hfit : Fits (sts ++ sts') (ws ++ ws')) :
    g.performAll edits = .ok { g with vertices := drawing (sts ++ sts') (ws ++ ws') } := by
  -- What is drawn so far is part of the whole drawing, so it fits.
  generalize hsize : sts.length = size at h
  induction h generalizing g sts ws with
  | nil =>
    rw [List.append_nil, List.append_nil, ← hg]
    rfl
  | @station size edit edits st sts' ws' hst _ ih =>
    rw [performAll_cons, perform_station hst, push_drawing hg hw]
    have hlen : (sts ++ [st]).length = sts.length + 1 := by simp
    have hw' : WiresBelow ws (sts ++ [st]).length := by
      intro e he
      have hlt := hw e he
      exact ⟨hlen ▸ Nat.lt_succ_of_lt hlt.1, hlen ▸ Nat.lt_succ_of_lt hlt.2⟩
    rw [List.append_cons sts st sts'] at hfit ⊢
    show Graph.performAll { g with vertices := drawing (sts ++ [st]) ws } edits = _
    exact ih rfl hw' hfit (hlen.trans (congrArg (· + 1) hsize))
  | @wire size e edits sts' ws' hs ht _ ih =>
    subst hsize
    rw [performAll_cons, connect_drawing hg hs ht hfit.left]
    rw [List.append_cons ws e ws'] at hfit ⊢
    have hone : WiresBelow [e] sts.length := by
      intro e' he
      rw [List.mem_singleton.mp he]
      exact ⟨hs, ht⟩
    show Graph.performAll { g with vertices := drawing sts (ws ++ [e]) } edits = _
    exact ih rfl (hw.append hone) hfit rfl

end Drawing
end BatchFlow

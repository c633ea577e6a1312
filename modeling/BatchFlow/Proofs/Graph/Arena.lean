import BatchFlow.Proofs.Graph.Drawing

/-!
# What edits keep

An edit adds a vertex without edges, or it adds one edge after both of its ends agreed to it. So
whatever the edits are, the id of a vertex is its place, an edge is recorded as often at its source
as at its target, and every vertex keeps to what its role admits.
-/

namespace BatchFlow

namespace Vertex

/-- The vertex with one more edge that leaves it. -/
def withArc (v : Vertex) (a : Arc) : Vertex := { v with arcs := v.arcs ++ [a] }

/-- The vertex with one more edge that comes in. -/
def withParent (v : Vertex) (p : VertexId) : Vertex := { v with parents := v.parents ++ [p] }

/-- A child is accepted exactly if the role admits it beside those that are there. -/
theorem admits_of_checkChild {v : Vertex} {parents : Nat} {c : Option Condition}
    (h : v.role.Admits parents (v.arcs.map Arc.condition)) (hc : v.checkChild c = .ok ()) :
    v.role.Admits parents (v.arcs.map Arc.condition ++ [c]) := by
  refine ⟨h.1, ?_⟩
  have hroom := h.2
  unfold checkChild at hc
  cases hr : v.role with
  | finish => simp [hr] at hc
  | kill => simp [hr] at hc
  | fork =>
    simp only [hr] at hc hroom
    cases c with
    | none =>
      intro k hk
      rcases List.mem_append.mp hk with hk | hk
      · exact hroom k hk
      · exact List.mem_singleton.mp hk
    | some c => cases hc
  | decision =>
    simp only [hr] at hc hroom
    cases c with
    | none => cases hc
    | some c =>
      constructor
      · intro k hk
        rcases List.mem_append.mp hk with hk | hk
        · exact hroom.1 k hk
        · rw [List.mem_singleton.mp hk]
          rfl
      · rw [List.countP_append, List.countP_singleton]
        by_cases hd : c.isDefault = true
        · have hnone : v.hasDefault = false := by
            by_contra hsome
            simp [hd, hsome] at hc
          have hzero : (v.arcs.map Arc.condition).countP (·.any Condition.isDefault) = 0 := by
            rw [List.countP_map, List.countP_eq_zero]
            intro a ha hdef
            exact absurd (List.any_eq_true.mpr ⟨a, ha, hdef⟩) (Bool.eq_false_iff.mp hnone)
          simp [hzero, hd]
        · simpa [hd] using hroom.2
  | _ =>
    simp only [hr] at hc hroom
    cases c with
    | some c => cases hc
    | none =>
      have hnil : v.arcs = [] := by
        by_contra hne
        simp [hne] at hc
      simp [hnil]

/-- A vertex that accepts a child has a place for the edge behind the edges that it has. -/
theorem attach_of_checkChild {v : Vertex} {target : VertexId} {c : Option Condition}
    (hc : v.checkChild c = .ok ()) : v.attach ⟨target, c⟩ = .ok (v.withArc ⟨target, c⟩) := by
  unfold checkChild at hc
  unfold attach
  cases hr : v.role with
  | finish => simp [hr] at hc
  | kill => simp [hr] at hc
  | fork =>
    cases c with
    | none => simp [withArc, hr]
    | some c => simp [hr] at hc
  | decision =>
    cases c with
    | none => simp [hr] at hc
    | some c => simp [withArc, hr]
  | _ =>
    cases c with
    | some c => simp [hr] at hc
    | none =>
      have hnil : v.arcs = [] := by
        by_contra hne
        simp [hr, hne] at hc
      simp [withArc, hr, hnil]

theorem admits_of_checkParent {v : Vertex} {conditions : List (Option Condition)}
    (h : v.role.Admits v.parents.length conditions) (hc : v.checkParent = .ok ()) :
    v.role.Admits (v.parents.length + 1) conditions := by
  refine ⟨?_, h.2⟩
  intro max hmax
  unfold checkParent at hc
  rw [hmax] at hc
  cases max with
  | zero => cases hc
  | succ max =>
    simp only at hc
    by_contra hlt
    rw [if_neg (show ¬ v.parents.length < max + 1 by omega)] at hc
    cases hc

end Vertex

namespace Graph

theorem vertex_eq_ok_iff {g : Graph} {id : VertexId} {x : Vertex} :
    g.vertex id = .ok x ↔ g.get? id = some x := by
  unfold vertex
  cases g.get? id <;> simp

theorem exists_get?_iff {g : Graph} {id : Nat} : (∃ x, g.get? id = some x) ↔ id < g.size := by
  constructor
  · rintro ⟨x, hx⟩
    exact (List.getElem?_eq_some_iff.mp hx).1
  · intro hlt
    exact ⟨_, List.getElem?_eq_getElem hlt⟩

/-! ## One edge -/

/-- The vertices with one more edge. -/
def linked (vs : List Vertex) (p c : VertexId) (condition : Option Condition) : List Vertex :=
  (vs.modify p (·.withArc ⟨c, condition⟩)).modify c (·.withParent p)

theorem set_eq_modify {vs : List Vertex} {p : Nat} {x : Vertex} {f : Vertex → Vertex}
    (hx : vs[p]? = some x) : vs.set p (f x) = vs.modify p f := by
  rw [List.modify_eq_set_getElem?, hx]
  rfl

/-- An edge is accepted exactly if both ends are there and agree to it, and then it is all that
changes. -/
theorem connect_eq_ok_iff {g g' : Graph} {p c : VertexId} {condition : Option Condition} :
    g.connect p c condition = .ok g' ↔ ∃ x y, g.get? p = some x ∧ g.get? c = some y ∧
      x.checkChild condition = .ok () ∧ y.checkParent = .ok () ∧
      g' = { g with vertices := linked g.vertices p c condition } := by
  simp only [connect, link, bind_eq_ok_iff, vertex_eq_ok_iff]
  constructor
  · rintro ⟨x, hx, _, hchild, y, hy, _, hparent, x', hx', source, hattach, hg⟩
    rw [← Option.some.inj (hx.symm.trans hx'), Vertex.attach_of_checkChild hchild] at hattach
    cases hattach
    cases hg
    refine ⟨x, y, hx, hy, hchild, hparent, ?_⟩
    rw [set_eq_modify hx (f := (·.withArc ⟨c, condition⟩))]
    rfl
  · rintro ⟨x, y, hx, hy, hchild, hparent, rfl⟩
    refine ⟨x, hx, (), hchild, y, hy, (), hparent, x, hx, _,
      Vertex.attach_of_checkChild hchild, ?_⟩
    rw [set_eq_modify hx (f := (·.withArc ⟨c, condition⟩))]
    rfl

theorem length_linked (vs : List Vertex) (p c : VertexId) (condition : Option Condition) :
    (linked vs p c condition).length = vs.length := by simp [linked]

/-- What becomes of one vertex when an edge is added. -/
def relinked (p c : VertexId) (condition : Option Condition) (v : VertexId) (x : Vertex) : Vertex :=
  let x := if p = v then x.withArc ⟨c, condition⟩ else x
  if c = v then x.withParent p else x

theorem getElem?_linked (vs : List Vertex) (p c : VertexId) (condition : Option Condition)
    (v : Nat) : (linked vs p c condition)[v]? = vs[v]?.map (relinked p c condition v) := by
  simp only [linked, List.getElem?_modify]
  cases vs[v]? with
  | none => rfl
  | some x => by_cases hp : p = v <;> by_cases hc : c = v <;> simp [relinked, hp, hc]

section relinked

variable (p c : VertexId) (condition : Option Condition) (v : VertexId) (x : Vertex)

@[simp] theorem id_relinked : (relinked p c condition v x).id = x.id := by
  unfold relinked
  by_cases hp : p = v <;> by_cases hc : c = v <;> simp [hp, hc, Vertex.withArc, Vertex.withParent]

@[simp] theorem name_relinked : (relinked p c condition v x).name = x.name := by
  unfold relinked
  by_cases hp : p = v <;> by_cases hc : c = v <;> simp [hp, hc, Vertex.withArc, Vertex.withParent]

@[simp] theorem role_relinked : (relinked p c condition v x).role = x.role := by
  unfold relinked
  by_cases hp : p = v <;> by_cases hc : c = v <;> simp [hp, hc, Vertex.withArc, Vertex.withParent]

@[simp] theorem arcs_relinked : (relinked p c condition v x).arcs =
    x.arcs ++ if p = v then [⟨c, condition⟩] else [] := by
  unfold relinked
  by_cases hp : p = v <;> by_cases hc : c = v <;> simp [hp, hc, Vertex.withArc, Vertex.withParent]

@[simp] theorem parents_relinked : (relinked p c condition v x).parents =
    x.parents ++ if c = v then [p] else [] := by
  unfold relinked
  by_cases hp : p = v <;> by_cases hc : c = v <;> simp [hp, hc, Vertex.withArc, Vertex.withParent]

end relinked

/-! ## Vertices that fit together -/

/-- Ids are places, edges are within the arena and recorded at both ends, and every vertex keeps to
its role. -/
structure Wired (vs : List Vertex) : Prop where
  id_eq : ∀ (i : Nat) x, vs[i]? = some x → x.id = i
  child_lt : ∀ (i : Nat) x, vs[i]? = some x → ∀ c : Nat, c ∈ x.children → c < vs.length
  parent_lt : ∀ (i : Nat) x, vs[i]? = some x → ∀ p : Nat, p ∈ x.parents → p < vs.length
  count_eq : ∀ (p c : Nat) x y, vs[p]? = some x → vs[c]? = some y →
    x.children.count c = y.parents.count p
  admits : ∀ (i : Nat) x, vs[i]? = some x →
    x.role.Admits x.parents.length (x.arcs.map Arc.condition)

theorem Wired.empty : Wired [] := by
  have hnone : ∀ (i : Nat) (x : Vertex), ([] : List Vertex)[i]? ≠ some x := by simp
  refine ⟨fun i x hx => ?_, fun i x hx => ?_, fun i x hx => ?_, fun p c x y hx => ?_,
    fun i x hx => ?_⟩ <;> exact absurd hx (hnone _ _)

theorem admits_nil (role : Role) : role.Admits 0 [] := by
  cases role <;> simp [Role.Admits]

theorem getElem?_concat_eq_some {vs : List Vertex} {new x : Vertex} {i : Nat}
    (h : (vs ++ [new])[i]? = some x) : vs[i]? = some x ∨ i = vs.length ∧ x = new := by
  rcases Nat.lt_trichotomy i vs.length with hlt | heq | hgt
  · rw [List.getElem?_append_left hlt] at h
    exact .inl h
  · subst heq
    rw [List.getElem?_concat_length] at h
    exact .inr ⟨rfl, (Option.some.inj h).symm⟩
  · rw [List.getElem?_eq_none (by simpa using Nat.succ_le_of_lt hgt)] at h
    cases h

/-- A new vertex has no edges, so nothing is asked of it. -/
theorem Wired.push {vs : List Vertex} (h : Wired vs) (name : String) (role : Role) :
    Wired (vs ++ [{ id := vs.length, name, role }]) := by
  have hcases : ∀ (i : Nat) x, (vs ++ [{ id := vs.length, name, role }])[i]? = some x →
      vs[i]? = some x ∨ i = vs.length ∧ x = { id := vs.length, name, role } :=
    fun _ _ => getElem?_concat_eq_some
  have hlen : (vs ++ [({ id := vs.length, name, role } : Vertex)]).length = vs.length + 1 := by
    simp
  constructor
  case id_eq =>
    intro i x hx
    rcases hcases i x hx with hx | ⟨rfl, rfl⟩
    · exact h.id_eq i x hx
    · rfl
  case child_lt =>
    intro i x hx c hc
    rw [hlen]
    rcases hcases i x hx with hx | ⟨-, rfl⟩
    · exact Nat.lt_succ_of_lt (h.child_lt i x hx c hc)
    · cases hc
  case parent_lt =>
    intro i x hx p hp
    rw [hlen]
    rcases hcases i x hx with hx | ⟨-, rfl⟩
    · exact Nat.lt_succ_of_lt (h.parent_lt i x hx p hp)
    · cases hp
  case count_eq =>
    intro p c x y hx hy
    have hfresh : ∀ (ids : List Nat), (∀ a ∈ ids, a < vs.length) → ids.count vs.length = 0 :=
      fun ids hids => List.count_eq_zero.mpr fun hmem => Nat.lt_irrefl _ (hids _ hmem)
    rcases hcases p x hx with hx | ⟨rfl, rfl⟩ <;> rcases hcases c y hy with hy | ⟨rfl, rfl⟩
    · exact h.count_eq p c x y hx hy
    · exact hfresh _ (h.child_lt p x hx)
    · exact (hfresh _ (h.parent_lt c y hy)).symm
    · rfl
  case admits =>
    intro i x hx
    rcases hcases i x hx with hx | ⟨-, rfl⟩
    · exact h.admits i x hx
    · exact admits_nil role

/-- An edge that both ends agree to is recorded at both. -/
theorem Wired.linked {vs : List Vertex} (h : Wired vs) {p c : Nat} {condition : Option Condition}
    {x y : Vertex} (hx : vs[p]? = some x) (hy : vs[c]? = some y)
    (hchild : x.checkChild condition = .ok ()) (hparent : y.checkParent = .ok ()) :
    Wired (linked vs p c condition) := by
  have hp : p < vs.length := (List.getElem?_eq_some_iff.mp hx).1
  have hc : c < vs.length := (List.getElem?_eq_some_iff.mp hy).1
  have hget : ∀ (i : Nat) z, (Graph.linked vs p c condition)[i]? = some z →
      ∃ u, vs[i]? = some u ∧ z = relinked p c condition i u := by
    intro i z hz
    rw [getElem?_linked, Option.map_eq_some_iff] at hz
    obtain ⟨u, hu, rfl⟩ := hz
    exact ⟨u, hu, rfl⟩
  constructor
  case id_eq =>
    intro i z hz
    obtain ⟨u, hu, rfl⟩ := hget i z hz
    rw [id_relinked]
    exact h.id_eq i u hu
  case child_lt =>
    intro i z hz k hk
    obtain ⟨u, hu, rfl⟩ := hget i z hz
    rw [length_linked]
    rw [Vertex.children, arcs_relinked, List.map_append, List.mem_append] at hk
    rcases hk with hk | hk
    · exact h.child_lt i u hu k hk
    · by_cases hpi : p = i
      · simp only [hpi, if_true, List.map_cons, List.map_nil, List.mem_singleton] at hk
        exact hk ▸ hc
      · simp [hpi] at hk
  case parent_lt =>
    intro i z hz k hk
    obtain ⟨u, hu, rfl⟩ := hget i z hz
    rw [length_linked]
    rw [parents_relinked, List.mem_append] at hk
    rcases hk with hk | hk
    · exact h.parent_lt i u hu k hk
    · by_cases hci : c = i
      · simp only [hci, if_true, List.mem_singleton] at hk
        exact hk ▸ hp
      · simp [hci] at hk
  case count_eq =>
    intro i j z z' hz hz'
    obtain ⟨u, hu, rfl⟩ := hget i z hz
    obtain ⟨u', hu', rfl⟩ := hget j z' hz'
    have hcount := h.count_eq i j u u' hu hu'
    rw [Vertex.children, arcs_relinked, parents_relinked, List.map_append, List.count_append,
      List.count_append, ← hcount]
    by_cases hpi : p = i <;> by_cases hcj : c = j <;> simp [Vertex.children, hpi, hcj]
  case admits =>
    intro i z hz
    obtain ⟨u, hu, rfl⟩ := hget i z hz
    rw [role_relinked, arcs_relinked, parents_relinked]
    have hadmits := h.admits i u hu
    have hafter : u.role.Admits u.parents.length
        (u.arcs.map Arc.condition ++ if p = i then [condition] else []) := by
      by_cases hpi : p = i
      · subst hpi
        rw [Option.some.inj (hx.symm.trans hu)] at hchild
        simpa using Vertex.admits_of_checkChild hadmits hchild
      · simpa [hpi] using hadmits
    by_cases hci : c = i
    · subst hci
      rw [Option.some.inj (hy.symm.trans hu)] at hparent
      have := Vertex.admits_of_checkParent hafter hparent
      by_cases hpc : p = c <;> simpa [hpc] using this
    · by_cases hpi : p = i <;> simpa [hpi, hci] using hafter

end Graph
end BatchFlow

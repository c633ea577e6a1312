import BatchFlow.Document.Emission
import BatchFlow.Proofs.Graph.Arena
import Mathlib.Data.Fintype.Pigeonhole
import Mathlib.Logic.Relation

/-!
# Where a transition leads

A transition into a decision join goes on behind it, so it leads to the first vertex on its way that
is no decision join. The way is fixed by the graph, so no vertex is on it twice unless it never
ends, and a way that ends is shorter than the graph. Hence the bounded search for the name finds
it whenever there is one.

A way that is as long as the graph or longer has come to some vertex twice. From there on it has
gone the same way again, so it is in a circle where it stands.
-/

namespace BatchFlow

theorem Vertex.mem_children_of_child? {v : Vertex} {next : VertexId} (h : v.child? = some next) :
    next ∈ v.children := by
  unfold child? at h
  by_cases hseq : v.role.isSequential = true
  · rw [if_pos hseq] at h
    exact List.mem_of_head? h
  · rw [if_neg hseq] at h
    cases h

namespace Graph

/-- The first vertex, from a given one on, that is no decision join, behind so many of them. -/
inductive LandsAfter (g : Graph) : Nat → VertexId → Vertex → Prop
  | here {id : VertexId} {x : Vertex} : g.get? id = some x → x.role ≠ .decisionJoin →
      LandsAfter g 0 id x
  | pass {hops : Nat} {id next : VertexId} {x y : Vertex} : g.get? id = some x →
      x.role = .decisionJoin → x.child? = some next → LandsAfter g hops next y →
      LandsAfter g (hops + 1) id y

/-- The first vertex, from a given one on, that is no decision join. -/
def Lands (g : Graph) (id : VertexId) (x : Vertex) : Prop := ∃ hops, g.LandsAfter hops id x

/-- A decision join passes on to its child. -/
def Passes (g : Graph) (id next : VertexId) : Prop :=
  ∃ x, g.get? id = some x ∧ x.role = .decisionJoin ∧ x.child? = some next

/-- So many decision joins in a row pass on, from one vertex to another. -/
inductive PassesOn (g : Graph) : Nat → VertexId → VertexId → Prop
  | stay (id : VertexId) : PassesOn g 0 id id
  | pass {hops : Nat} {id next last : VertexId} : g.Passes id next → PassesOn g hops next last →
      PassesOn g (hops + 1) id last

/-- The name of the vertex that a transition to another one leads to. -/
def LeadsTo (g : Graph) (id : VertexId) (name : String) : Prop := ∃ x, g.Lands id x ∧ x.name = name

section

variable {g : Graph} {hops hops' : Nat} {id : VertexId} {x x' : Vertex}

theorem Lands.here (hx : g.get? id = some x) (hrole : x.role ≠ .decisionJoin) : g.Lands id x :=
  ⟨0, .here hx hrole⟩

theorem Lands.pass {next : VertexId} {y : Vertex} (hx : g.get? id = some x)
    (hrole : x.role = .decisionJoin) (hnext : x.child? = some next) (h : g.Lands next y) :
    g.Lands id y := by
  obtain ⟨hops, hy⟩ := h
  exact ⟨hops + 1, .pass hx hrole hnext hy⟩

theorem LandsAfter.lt_size (h : g.LandsAfter hops id x) : id < g.size := by
  cases h with
  | here hx _ => exact exists_get?_iff.mp ⟨_, hx⟩
  | pass hx _ _ _ => exact exists_get?_iff.mp ⟨_, hx⟩

theorem LandsAfter.unique (h : g.LandsAfter hops id x) (h' : g.LandsAfter hops' id x') :
    hops = hops' ∧ x = x' := by
  induction h generalizing hops' with
  | here hx hrole =>
    cases h' with
    | here hx' _ => exact ⟨rfl, Option.some.inj (hx.symm.trans hx')⟩
    | pass hx' hjoin _ _ =>
      rw [← Option.some.inj (hx.symm.trans hx')] at hjoin
      exact absurd hjoin hrole
  | pass hx hjoin hnext _ ih =>
    cases h' with
    | here hx' hrole =>
      rw [← Option.some.inj (hx.symm.trans hx')] at hrole
      exact absurd hjoin hrole
    | pass hx' _ hnext' hrest =>
      rw [← Option.some.inj (hx.symm.trans hx'), hnext] at hnext'
      rw [← Option.some.inj hnext'] at hrest
      obtain ⟨hhops, hy⟩ := ih hrest
      exact ⟨congrArg (· + 1) hhops, hy⟩

theorem Lands.unique (h : g.Lands id x) (h' : g.Lands id x') : x = x' := by
  obtain ⟨_, h⟩ := h
  obtain ⟨_, h'⟩ := h'
  exact (h.unique h').2

theorem LeadsTo.unique {name name' : String} (h : g.LeadsTo id name) (h' : g.LeadsTo id name') :
    name = name' := by
  obtain ⟨x, hx, rfl⟩ := h
  obtain ⟨x', hx', rfl⟩ := h'
  rw [hx.unique hx']

/-! ## Circles -/

theorem Passes.unique {a b : VertexId} (h : g.Passes id a) (h' : g.Passes id b) : a = b := by
  obtain ⟨y, hy, -, ha⟩ := h
  obtain ⟨y', hy', -, hb⟩ := h'
  rw [Option.some.inj (hy.symm.trans hy'), hb] at ha
  exact (Option.some.inj ha).symm

theorem Passes.lt_size {next : VertexId} (h : g.Passes id next) : id < g.size := by
  obtain ⟨y, hy, -⟩ := h
  exact exists_get?_iff.mp ⟨y, hy⟩

section

variable {last : VertexId}

theorem PassesOn.leads (h : g.PassesOn hops id last) : Relation.ReflTransGen g.Passes id last := by
  induction h with
  | stay id => exact .refl
  | pass hpass _ ih => exact .head hpass ih

theorem PassesOn.lt_size (h : g.PassesOn hops id last) (hlast : last < g.size) : id < g.size := by
  cases h with
  | stay => exact hlast
  | pass hpass _ => exact hpass.lt_size

theorem PassesOn.exists_of_le (h : g.PassesOn hops id last) {j : Nat} (hj : j ≤ hops) :
    ∃ place : VertexId, g.PassesOn j place last := by
  induction h generalizing j with
  | stay id =>
    rw [Nat.le_zero.mp hj]
    exact ⟨id, .stay id⟩
  | pass hpass hrest ih =>
    rcases Nat.lt_or_eq_of_le hj with hlt | heq
    · exact ih (Nat.le_of_lt_succ hlt)
    · rw [heq]
      exact ⟨_, .pass hpass hrest⟩

/-- Behind the end of the shorter way the longer one returns to it. -/
theorem PassesOn.circles (h : g.PassesOn hops id last) (h' : g.PassesOn hops' id last)
    (hlt : hops < hops') : Relation.TransGen g.Passes last last := by
  induction h generalizing hops' with
  | stay id =>
    cases h' with
    | stay => exact absurd hlt (Nat.lt_irrefl 0)
    | pass hpass hrest => exact .head' hpass hrest.leads
  | pass hpass _ ih =>
    cases h' with
    | stay => exact absurd hlt (Nat.not_lt_zero _)
    | pass hpass' hrest' =>
      rw [hpass'.unique hpass] at hrest'
      exact ih hrest' (Nat.lt_of_succ_lt_succ hlt)

/-- Of the places from which the way is 0, 1, … hops long two are the same. -/
theorem PassesOn.circles_of_size_le (h : g.PassesOn hops id last) (hlast : last < g.size)
    (hlong : g.size ≤ hops) : Relation.TransGen g.Passes last last := by
  have hplaces : ∀ j : Fin (hops + 1), ∃ place : VertexId, g.PassesOn j place last :=
    fun j => h.exists_of_le (Nat.le_of_lt_succ j.isLt)
  choose place hplace using hplaces
  let f : Fin (hops + 1) → Fin g.size := fun j => ⟨place j, (hplace j).lt_size hlast⟩
  have hcard : Fintype.card (Fin g.size) < Fintype.card (Fin (hops + 1)) := by
    rw [Fintype.card_fin, Fintype.card_fin]
    exact Nat.lt_succ_of_le hlong
  obtain ⟨i, j, hne, hij⟩ := Fintype.exists_ne_map_eq_of_card_lt f hcard
  have hsame : place i = place j := congrArg Fin.val hij
  have hi := hplace i
  have hj := hplace j
  rw [hsame] at hi
  rcases Nat.lt_or_gt_of_ne (fun heq => hne (Fin.ext heq)) with hlt | hgt
  · exact hi.circles hj hlt
  · exact hj.circles hi hgt

end

theorem LandsAfter.exists_passesOn (h : g.LandsAfter hops id x) :
    ∃ last, g.PassesOn hops id last ∧ g.get? last = some x ∧ x.role ≠ .decisionJoin := by
  induction h with
  | @here id _ hx hrole => exact ⟨id, .stay id, hx, hrole⟩
  | @pass _ _ _ w _ hx hjoin hnext _ ih =>
    obtain ⟨last, hrest, hlast, hrole⟩ := ih
    exact ⟨last, .pass ⟨w, hx, hjoin, hnext⟩ hrest, hlast, hrole⟩

/-- A way that ends is not in a circle, so it is shorter than the graph. -/
theorem LandsAfter.hops_lt (h : g.LandsAfter hops id x) : hops < g.size := by
  obtain ⟨last, hway, hlast, hrole⟩ := h.exists_passesOn
  by_contra hlong
  have hcircle := hway.circles_of_size_le (exists_get?_iff.mp ⟨x, hlast⟩) (Nat.le_of_not_lt hlong)
  obtain ⟨next, ⟨y, hy, hjoin, -⟩, -⟩ := Relation.TransGen.head'_iff.mp hcircle
  rw [Option.some.inj (hy.symm.trans hlast)] at hjoin
  exact hrole hjoin

/-! ## The bounded search -/

theorem passJoins_of_landsAfter {v : Vertex} {bound : Nat} (h : g.LandsAfter hops id x)
    (hv : g.get? id = some v) (hbound : hops < bound) : g.passJoins bound v = .ok x.name := by
  induction h generalizing v bound with
  | here hx hrole =>
    obtain ⟨bound, rfl⟩ := Nat.exists_eq_add_of_lt hbound
    rw [← Option.some.inj (hx.symm.trans hv)]
    simp [passJoins, hrole]
  | @pass hops _ next w y hx hjoin hnext hrest ih =>
    obtain ⟨bound, rfl⟩ : ∃ b, bound = b + 1 := ⟨bound - 1, by omega⟩
    obtain ⟨z, hz⟩ := exists_get?_iff.mpr hrest.lt_size
    rw [← Option.some.inj (hx.symm.trans hv)]
    simp only [passJoins, hjoin, hnext, if_true, vertex_eq_ok_iff.mpr hz]
    exact ih hz (Nat.lt_of_succ_lt_succ hbound)

theorem leadsTo_of_passJoins {v : Vertex} {bound : Nat} {name : String}
    (hv : g.get? id = some v) (h : g.passJoins bound v = .ok name) : g.LeadsTo id name := by
  induction bound generalizing id v with
  | zero => cases h
  | succ bound ih =>
    unfold passJoins at h
    by_cases hjoin : v.role = .decisionJoin
    · rw [if_pos hjoin] at h
      cases hnext : v.child? with
      | none => simp [hnext] at h
      | some next =>
        simp only [hnext] at h
        obtain ⟨z, hz, hrest⟩ := bind_eq_ok_iff.mp h
        obtain ⟨y, hy, hname⟩ := ih (vertex_eq_ok_iff.mp (mapError_eq_ok_iff.mp hz)) hrest
        exact ⟨y, hy.pass hv hjoin hnext, hname⟩
    · rw [if_neg hjoin] at h
      exact ⟨v, .here hv hjoin, Except.ok.inj h⟩

/-- The search finds the name that a transition leads to, and no other. -/
theorem targetName_eq_ok_iff {name : String} : g.targetName id = .ok name ↔ g.LeadsTo id name := by
  unfold targetName
  constructor
  · intro h
    obtain ⟨v, hv, h⟩ := bind_eq_ok_iff.mp h
    exact leadsTo_of_passJoins (vertex_eq_ok_iff.mp (mapError_eq_ok_iff.mp hv)) h
  · rintro ⟨x, ⟨hops, hx⟩, rfl⟩
    obtain ⟨v, hv⟩ := exists_get?_iff.mpr hx.lt_size
    have hbound : hops < g.size + 1 := Nat.lt_succ_of_lt hx.hops_lt
    exact bind_eq_ok_iff.mpr ⟨v, mapError_eq_ok_iff.mpr (vertex_eq_ok_iff.mpr hv),
      passJoins_of_landsAfter hx hv hbound⟩

end
end Graph
end BatchFlow

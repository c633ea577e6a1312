import BatchFlow.Proofs.Graph.Reached
import BatchFlow.Proofs.InPlace

/-!
# Edits in place

A graph may also be edited where it is: an edge is stored at its source first and at its target
after that, so an edit that failed in between would leave half an edge behind. It never does, since
both ends have been asked before either is changed, and a source that agreed does store the edge.

So a graph that has been edited in whatever way, with ids that are not there, with edges from a
vertex to itself and with refused edits among the others, keeps to the same rules at all times.
-/

namespace BatchFlow
namespace Graph

/-- A change to a graph. When it fails, what it has done so far remains. -/
abbrev Change := EStateM GraphError Graph Unit

/-- Stores an edge at its source, if the source has room for it. -/
def attachInPlace (parent : VertexId) (a : Arc) : Change := attempt fun g => do
  let source ← (← g.vertex parent).attach a
  return { g with vertices := g.vertices.set parent source }

/-- Stores an edge at its target. -/
def enterInPlace (child parent : VertexId) : Change :=
  modify fun g => { g with vertices := g.vertices.modify child (·.withParent parent) }

/-- Asks both ends, then changes one after the other. -/
def connectInPlace (parent child : VertexId) (condition : Option Condition) : Change := do
  let g ← get
  answer (g.vertex parent >>= (·.checkChild condition))
  answer (g.vertex child >>= (·.checkParent))
  attachInPlace parent ⟨child, condition⟩
  enterInPlace child parent

def performInPlace : Edit → Change
  | .addStart => modify addStart
  | .addFinish => modify addFinish
  | .addKill => modify addKill
  | .addDecision name => modify (·.push name .decision)
  | .addFork name => modify (·.push name .fork)
  | .addJoin name => modify (·.push name .join)
  | .addDecisionJoin name => modify (·.push name .decisionJoin)
  | .addTask name task => modify (·.push name (.task task))
  | .connect parent child condition => connectInPlace parent child condition

/-- An edge is stored at both ends or at none. -/
theorem connectInPlace_eq (p c : VertexId) (condition : Option Condition) :
    connectInPlace p c condition = attempt (·.connect p c condition) := by
  simp only [connectInPlace, attachInPlace, enterInPlace, attempt_bind_modify, answer_bind_attempt,
    get_bind_attempt]
  congr 1
  funext g
  simp only [connect, link, bind_assoc, map_bind, map_pure]
  rfl

theorem performInPlace_eq (e : Edit) : performInPlace e = attempt (·.perform e) := by
  cases e with
  | connect p c condition => exact connectInPlace_eq p c condition
  | _ => rfl

/-- The graph after edits in a row, refused ones among them. -/
def editAll (g : Graph) (edits : List Edit) : Graph :=
  edits.foldl (fun g e => leave (performInPlace e) g) g

theorem Reached.leave {g : Graph} (h : g.Reached) (e : Edit) :
    (BatchFlow.leave (performInPlace e) g).Reached := by
  rw [performInPlace_eq, leave_attempt]
  cases he : g.perform e with
  | ok g' => exact h.edit he
  | error x => exact h

theorem Reached.editAll {g : Graph} (h : g.Reached) (edits : List Edit) :
    (g.editAll edits).Reached := by
  induction edits generalizing g with
  | nil => exact h
  | cons e rest ih => exact ih (h.leave e)

end Graph

/-! ## Rules that graphs keep to -/

/-- The table of roles: how many edges come in, and how many go out, with or without conditions. -/
structure Vertex.KeepsToRole (v : Vertex) : Prop where
  no_parents : v.role = .start ∨ v.role = .kill → v.parents = []
  one_parent : (v.role = .finish ∨ v.role = .decision ∨ v.role = .fork ∨ ∃ t, v.role = .task t) →
    v.parents.length ≤ 1
  no_children : v.role = .finish ∨ v.role = .kill → v.children = []
  one_child : (v.role = .start ∨ v.role = .join ∨ v.role = .decisionJoin ∨ ∃ t, v.role = .task t) →
    v.children.length ≤ 1
  conditional : v.role = .decision → ∀ a ∈ v.arcs, a.condition.isSome = true
  one_default : v.role = .decision → v.arcs.countP (·.condition = some .otherwise) ≤ 1
  plain : v.role ≠ .decision → ∀ a ∈ v.arcs, a.condition = none

namespace Vertex

variable {v : Vertex} (h : v.role.Admits v.parents.length (v.arcs.map Arc.condition))
include h

theorem keepsToRole_of_admits : v.KeepsToRole where
  no_parents hrole := by
    have hmax : v.role.maxParents? = some 0 := by rcases hrole with hr | hr <;> rw [hr] <;> rfl
    exact List.eq_nil_of_length_eq_zero (Nat.le_zero.mp (h.1 0 hmax))
  one_parent hrole := by
    refine h.1 1 ?_
    rcases hrole with hr | hr | hr | ⟨t, hr⟩ <;> rw [hr] <;> rfl
  no_children hrole := by
    have hroom := h.2
    rcases hrole with hr | hr <;> simpa [hr, children] using hroom
  one_child hrole := by
    have hroom := h.2
    rcases hrole with hr | hr | hr | ⟨t, hr⟩ <;> simp only [hr, List.length_map] at hroom <;>
      simpa [children] using hroom.1
  conditional hrole := by
    have hroom := h.2
    simp only [hrole] at hroom
    exact fun a ha => hroom.1 _ (List.mem_map_of_mem ha)
  one_default hrole := by
    have hroom := h.2
    simp only [hrole, List.countP_map] at hroom
    refine Nat.le_trans (Nat.le_of_eq (List.countP_congr fun a _ => ?_)) hroom.2
    cases ha : a.condition with
    | none => simp [ha]
    | some c => cases c <;> simp [ha, Condition.isDefault]
  plain hrole := by
    have hroom := h.2
    have hplain : ∀ c ∈ v.arcs.map Arc.condition, c = none := by
      cases hr : v.role with
      | decision => exact absurd hr hrole
      | fork => simpa only [hr] using hroom
      | finish => simp_all
      | kill => simp_all
      | _ => exact (by simpa only [hr] using hroom : _ ∧ _).2
    exact fun a ha => hplain _ (List.mem_map_of_mem ha)

end Vertex

namespace Graph

/-- No two vertices have the role, and the place is that of the vertex that has it, if there is
one. -/
structure Single (g : Graph) (role : Role) (place : Option VertexId) : Prop where
  unique : ∀ (i j : VertexId) x y, g.get? i = some x → g.get? j = some y → x.role = role →
    y.role = role → i = j
  place_iff : ∀ i, place = some i ↔ ∃ x, g.get? i = some x ∧ x.role = role

/-- What holds of a graph whatever has been done to it. -/
structure Coherent (g : Graph) : Prop where
  id_eq : ∀ (i : VertexId) x, g.get? i = some x → x.id = i
  start : g.Single .start g.start
  finish : g.Single .finish g.finish
  kill : g.Single .kill g.kill
  child_lt : ∀ (i : VertexId) x, g.get? i = some x → ∀ c ∈ x.children, c < g.size
  parent_lt : ∀ (i : VertexId) x, g.get? i = some x → ∀ p ∈ x.parents, p < g.size
  /-- Edges are counted, because two vertices may be connected more than once. -/
  count_eq : ∀ (p c : VertexId) x y, g.get? p = some x → g.get? c = some y →
    x.children.count c = y.parents.count p
  keeps : ∀ (i : VertexId) x, g.get? i = some x → x.KeepsToRole

theorem Places.single {g : Graph} {role : Role} {place : Option VertexId}
    (h : Places g.vertices role place) : g.Single role place where
  unique i j x y hx hy hrole hrole' := by
    have hi := (h i).mpr ⟨x, hx, hrole⟩
    exact Option.some.inj (hi.symm.trans ((h j).mpr ⟨y, hy, hrole'⟩))
  place_iff := h

theorem Sound.coherent {g : Graph} (h : g.Sound) : g.Coherent where
  id_eq := h.wired.id_eq
  start := h.start.single
  finish := h.finish.single
  kill := h.kill.single
  child_lt := h.wired.child_lt
  parent_lt := h.wired.parent_lt
  count_eq := h.wired.count_eq
  keeps i x hx := Vertex.keepsToRole_of_admits (h.wired.admits i x hx)

/-- Whatever edits are made of an empty graph, refused ones included, the graph that is left behind
is coherent. -/
theorem editAll_coherent (name : String) (edits : List Edit) :
    (({ name } : Graph).editAll edits).Coherent :=
  ((Reached.empty name).editAll edits).sound.coherent

/-- A join that is its own child, a fork with two edges to it, and edits that are refused: a second
child of the join, a vertex that is not there, an edge into a kill vertex, and a condition on an
edge that leaves a fork. -/
example :
    let g := ({} : Graph).editAll [.addJoin "a", .connect 0 0 none, .connect 0 0 none, .addFork "b",
      .connect 1 0 none, .connect 1 0 none, .connect 1 7 none, .addKill, .connect 1 2 none, .addKill,
      .connect 1 0 (some .otherwise)]
    g.size = 3 ∧ g.kill = some 2 ∧
      (g.get? 0).map (fun v => (v.parents, v.children)) = some ([0, 1, 1], [0]) ∧
      (g.get? 1).map (fun v => (v.parents, v.children)) = some ([], [0, 0]) := by
  decide

end Graph
end BatchFlow

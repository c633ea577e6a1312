import BatchFlow.Proofs.Graph.InPlace

/-!
# Which edges are accepted

An edge is accepted exactly if the role of its source has room for one more child of that sort and
the role of its target has room for one more parent. Then it goes behind the edges that both ends
have, and nothing else changes. Otherwise the graph is left as it was.

The source is asked twice, by the check and again when it stores the edge. A source that passes the
check stores the edge, so nothing fails once the graph has begun to change.
-/

namespace BatchFlow
namespace Vertex

/-- There is room for one more child. Conditions are for the children of decisions, and at most one
of a decision's children is the default. -/
def TakesChild (v : Vertex) : Option Condition → Prop
  | none => v.role = .fork ∨
      (v.role = .start ∨ v.role = .join ∨ v.role = .decisionJoin ∨ ∃ t, v.role = .task t) ∧
        v.children = []
  | some c => v.role = .decision ∧
      ¬ (c = .otherwise ∧ ∃ a ∈ v.arcs, a.condition = some .otherwise)

/-- There is room for one more parent. -/
structure TakesParent (v : Vertex) : Prop where
  not_start : v.role ≠ .start
  not_kill : v.role ≠ .kill
  no_parents : v.role ≠ .join → v.role ≠ .decisionJoin → v.parents = []

theorem hasDefault_iff (v : Vertex) :
    v.hasDefault = true ↔ ∃ a ∈ v.arcs, a.condition = some .otherwise := by
  rw [hasDefault, List.any_eq_true]
  refine exists_congr fun a => and_congr_right fun _ => ?_
  rcases a.condition with _ | ⟨label⟩ | _ <;> simp [Condition.isDefault]

theorem checkChild_eq_ok_iff {v : Vertex} {c : Option Condition} :
    v.checkChild c = .ok () ↔ v.TakesChild c := by
  cases c with
  | none =>
    cases hr : v.role <;> simp [checkChild, TakesChild, hr, children]
  | some c =>
    cases hr : v.role with
    | decision =>
      have hdefault : c.isDefault = true ↔ c = .otherwise := by
        cases c <;> simp [Condition.isDefault]
      simp [checkChild, TakesChild, hr, hdefault, hasDefault_iff]
    | _ => simp [checkChild, TakesChild, hr]

theorem checkParent_eq_ok_iff {v : Vertex} : v.checkParent = .ok () ↔ v.TakesParent := by
  have hroom : v.TakesParent ↔ v.role ≠ .start ∧ v.role ≠ .kill ∧
      (v.role ≠ .join → v.role ≠ .decisionJoin → v.parents = []) :=
    ⟨fun h => ⟨h.not_start, h.not_kill, h.no_parents⟩, fun h => ⟨h.1, h.2.1, h.2.2⟩⟩
  rw [hroom]
  cases hr : v.role <;> simp [checkParent, hr, Role.maxParents?]

end Vertex

namespace Graph

/-- Both ends are there and have room for the edge. -/
def Joinable (g : Graph) (p c : VertexId) (condition : Option Condition) : Prop :=
  ∃ x y, g.get? p = some x ∧ g.get? c = some y ∧ x.TakesChild condition ∧ y.TakesParent

/-- The second graph has one edge more, behind the other children of its source and behind the
other parents of its target. A vertex may be both. -/
structure Gains (g : Graph) (p c : VertexId) (condition : Option Condition) (g' : Graph) : Prop where
  name_eq : g'.name = g.name
  start_eq : g'.start = g.start
  finish_eq : g'.finish = g.finish
  kill_eq : g'.kill = g.kill
  get?_eq : ∀ v, g'.get? v = (g.get? v).map fun x =>
    { x with arcs := x.arcs ++ (if p = v then [⟨c, condition⟩] else [])
             parents := x.parents ++ (if c = v then [p] else []) }

theorem relinked_eq (p c : VertexId) (condition : Option Condition) (v : VertexId) (x : Vertex) :
    relinked p c condition v x =
      { x with arcs := x.arcs ++ (if p = v then [⟨c, condition⟩] else [])
               parents := x.parents ++ (if c = v then [p] else []) } := by
  unfold relinked
  by_cases hp : p = v <;> by_cases hc : c = v <;> simp [hp, hc, Vertex.withArc, Vertex.withParent]

theorem gains_linked (g : Graph) (p c : VertexId) (condition : Option Condition) :
    g.Gains p c condition { g with vertices := linked g.vertices p c condition } where
  name_eq := rfl
  start_eq := rfl
  finish_eq := rfl
  kill_eq := rfl
  get?_eq v := by
    rw [← funext (relinked_eq p c condition v)]
    exact getElem?_linked g.vertices p c condition v

theorem joinable_iff {g : Graph} {p c : VertexId} {condition : Option Condition} :
    g.Joinable p c condition ↔ ∃ g', g.connect p c condition = .ok g' := by
  simp only [connect_eq_ok_iff, Joinable, Vertex.checkChild_eq_ok_iff,
    Vertex.checkParent_eq_ok_iff]
  constructor
  · rintro ⟨x, y, hx, hy, hchild, hparent⟩
    exact ⟨_, x, y, hx, hy, hchild, hparent, rfl⟩
  · rintro ⟨_, x, y, hx, hy, hchild, hparent, -⟩
    exact ⟨x, y, hx, hy, hchild, hparent⟩

/-- A source that passes the check stores the edge. -/
theorem exists_attachInPlace {g : Graph} {p c : VertexId} {condition : Option Condition} {x : Vertex}
    (hx : g.get? p = some x) (hchild : x.checkChild condition = .ok ()) :
    ∃ g', attachInPlace p ⟨c, condition⟩ g = .ok () g' := by
  have hattach : x.attach ⟨c, condition⟩ = _ := Vertex.attach_of_checkChild hchild
  refine ⟨{ g with vertices := g.vertices.set p (x.withArc ⟨c, condition⟩) }, attempt_of_ok ?_⟩
  rw [vertex_eq_ok_iff.mpr hx, ok_bind, hattach]
  rfl

/-- An edge that both ends have room for is added, and any other is refused and changes nothing. It
is refused before the graph changes, since a source that passes the check stores the edge. -/
theorem connect_all_or_nothing (g : Graph) (p c : VertexId) (condition : Option Condition) :
    (g.Joinable p c condition → ∃ g', g.connect p c condition = .ok g' ∧
      connectInPlace p c condition g = .ok () g' ∧ g.Gains p c condition g') ∧
    (¬ g.Joinable p c condition → ∃ e, g.connect p c condition = .error e ∧
      connectInPlace p c condition g = .error e g) ∧
    ∀ x, g.get? p = some x → x.checkChild condition = .ok () →
      ∃ g', attachInPlace p ⟨c, condition⟩ g = .ok () g' := by
  rw [connectInPlace_eq]
  refine ⟨fun hjoin => ?_, fun hjoin => ?_, fun x => exists_attachInPlace⟩
  · obtain ⟨g', hg'⟩ := joinable_iff.mp hjoin
    obtain ⟨-, -, -, -, -, -, rfl⟩ := connect_eq_ok_iff.mp hg'
    exact ⟨_, hg', attempt_of_ok hg', gains_linked g p c condition⟩
  · cases hg' : g.connect p c condition with
    | ok g' => exact absurd (joinable_iff.mpr ⟨g', hg'⟩) hjoin
    | error e => exact ⟨e, rfl, attempt_eq_error_iff.mpr ⟨hg', rfl⟩⟩

/-- A join that becomes its own child and its own parent, and then has no room for a second child. -/
example :
    let g := ({} : Graph).push "again" .join
    (leave (connectInPlace 0 0 none) g).vertices =
      [{ id := 0, name := "again", role := .join, parents := [0], arcs := [⟨0, none⟩] }] ∧
    (leave (connectInPlace 0 0 none) g).connect 0 0 none = .error (.multipleChildren "again") := by
  decide

end Graph
end BatchFlow

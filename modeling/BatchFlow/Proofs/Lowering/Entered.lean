import BatchFlow.Proofs.Lowering.Drawn
import BatchFlow.Proofs.Outline.Runs
import BatchFlow.Proofs.Workflow.Built

/-!
# What is entered in a graph

Control begins at the start and follows the edges that are open. In a graph that shows an outline
this is a run through the wires of the outline, so what holds of runs through rows holds of the
graph.
-/

namespace BatchFlow

/-- The vertices that control enters when it follows open edges. An edge is given by its source and
its place among the edges that leave the source. -/
inductive Graph.Entered (g : Graph) (isOpen : VertexId → Nat → Prop) : VertexId → Prop
  | start {v : VertexId} : g.start = some v → Entered g isOpen v
  | follow {e : Wire} : g.HasWire e → Entered g isOpen e.port.source →
      isOpen e.port.source e.port.index → Entered g isOpen e.target

/-- The edge leaves an entered vertex and is open. -/
def Graph.Follows (g : Graph) (isOpen : VertexId → Nat → Prop) (e : Wire) : Prop :=
  g.HasWire e ∧ g.Entered isOpen e.port.source ∧ isOpen e.port.source e.port.index

namespace Row

theorem owns_allWires (r : Row) : r.Owns r.allWires ⟨0, 0, none⟩ 2 := by
  intro e hle _
  unfold allWires wiresTo
  rw [List.mem_append]
  refine or_iff_left fun he => ?_
  rw [List.mem_singleton.mp he] at hle
  exact absurd hle (show ¬ 2 ≤ 1 by decide)

theorem mem_allWires_finish {r : Row} {e : Wire} (he : e.target = 1) :
    e ∈ r.allWires ↔ e = ⟨r.exit ⟨0, 0, none⟩ 2, 1⟩ := by
  unfold allWires wiresTo
  rw [List.mem_append, List.mem_singleton]
  refine or_iff_right fun hmem => ?_
  have := (r.mem_wires _ _ e hmem).1
  omega

theorem mem_allSites_of_mem_sites {r : Row} {v : Nat} {role : Role} (h : (v, role) ∈ r.sites 2) :
    (v, role) ∈ r.allSites := mem_allSites.mpr (.inr (.inr (.inl h)))

end Row

namespace Graph.Shows

variable {g : Graph} {r : Row} (h : g.Shows r)
include h

/-- The run of control from the start. -/
def run (isOpen : VertexId → Nat → Prop) : Run where
  wires := r.allWires
  isOpen
  first := 0
  entered := g.Entered isOpen
  entered_iff v := by
    constructor
    · intro hv
      cases hv with
      | start hs => exact .inl (Option.some.inj (hs.symm.trans h.start_eq))
      | @follow e he hsource hopen => exact .inr ⟨e, (h.wire_iff e).mp he, rfl, hsource, hopen⟩
    · rintro (rfl | ⟨e, he, rfl, hsource, hopen⟩)
      · exact .start h.start_eq
      · exact .follow ((h.wire_iff e).mpr he) hsource hopen

theorem role_unique {v : Nat} {role role' : Role} (hv : (v, role) ∈ r.allSites)
    (hv' : (v, role') ∈ r.allSites) : role = role' := by
  obtain ⟨x, hx, rfl⟩ := (h.role_iff v role).mpr hv
  obtain ⟨y, hy, rfl⟩ := (h.role_iff v role').mpr hv'
  rw [Option.some.inj (hx.symm.trans hy)]

/-- If control is never stuck, it comes to the end. -/
theorem entered_finish {isOpen : VertexId → Nat → Prop} (hstart : isOpen 0 0)
    (hopen : r.Opened isOpen 2) : g.Entered isOpen 1 := by
  have howns : r.Owns (h.run isOpen).wires ⟨0, 0, none⟩ 2 := r.owns_allWires
  have hexit := r.live_exit ⟨0, 0, none⟩ 2 howns hopen (.inl Nat.two_pos)
  have hfinish := (h.run isOpen).entered_iff_of_single (q := r.exit ⟨0, 0, none⟩ 2) Nat.one_ne_zero
    fun e he => Row.mem_allWires_finish he
  exact hfinish.mpr (hexit.mpr ⟨.start h.start_eq, hstart⟩)

end Graph.Shows

def Graph.nightly : Graph :=
  match Graph.ofWorkflow .nightly with
  | .ok g => g
  | .error _ => {}

theorem Graph.ofWorkflow_nightly : Graph.ofWorkflow .nightly = .ok Graph.nightly := rfl

end BatchFlow

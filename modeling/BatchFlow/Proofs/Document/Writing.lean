import BatchFlow.Proofs.Document.Readiness
import BatchFlow.Proofs.Lowering.Shape

/-!
# Complete graphs are written

In a complete graph every transition leads somewhere: a decision join has a child, and the way to
the end passes through it. So each vertex is ready as soon as the translator has payloads for the
tasks and their handlers, and only a name that is used twice can still be in the way.
-/

namespace BatchFlow

namespace Graph.WellFormed

variable {g : Graph} {w : Workflow} {t : Translator} (h : g.WellFormed w)
include h

theorem children_ne_nil {v : VertexId} {x : Vertex} (hv : g.get? v = some x)
    (hrole : x.role = .start ∨ x.role = .fork ∨ x.role = .join) : x.children ≠ [] := by
  have hcomplete := h.complete v x hv
  have hpos : 0 < (x.arcs.map Arc.condition).length := by
    rcases hrole with hr | hr | hr <;> rw [hr] at hcomplete <;> have := hcomplete.2 <;> omega
  rw [List.length_map, ← List.length_map (f := Arc.target)] at hpos
  exact List.ne_nil_of_length_pos hpos

/-- Every vertex lies on a way to the end, so decision joins are passed until there is another
vertex. -/
theorem exists_lands {v : VertexId} {x : Vertex} (hv : g.get? v = some x) (hkill : x.role ≠ .kill) :
    ∃ y, g.Lands v y := by
  obtain ⟨-, f, hf, hway⟩ := h.connected v x hv hkill
  induction hway using Relation.ReflTransGen.head_induction_on generalizing x with
  | refl =>
    obtain ⟨y, hy, hrole⟩ := (h.sound.finish f).mp hf
    exact ⟨y, .here hy (by rw [hrole]; exact Role.noConfusion)⟩
  | @head v c hchild _ ih =>
    obtain ⟨x', hx', hc⟩ := hchild
    cases Option.some.inj (hv.symm.trans hx')
    obtain ⟨y, hy⟩ := Graph.exists_get?_iff.mpr (h.sound.wired.child_lt v x hv c hc)
    obtain ⟨z, hz⟩ := ih hy (h.sound.entered_role (List.mem_of_getElem? hv) hc hy).2
    by_cases hjoin : x.role = .decisionJoin
    · have hkeeps := Vertex.keepsToRole_of_admits (h.sound.wired.admits v x hv)
      exact ⟨z, hz.pass hv hjoin (hkeeps.child?_of_mem (by rw [hjoin]; rfl) hc)⟩
    · exact ⟨x, .here hv hjoin⟩

theorem ready {x : Vertex} (hx : x ∈ g.vertices) (hcovers : t.Covers x) : x.Ready t g := by
  obtain ⟨v, hv⟩ := List.mem_iff_getElem?.mp hx
  constructor
  case has_default =>
    exact fun hrole => (Vertex.hasDefault_iff x).mp
      (((Document.problems_eq_nil_iff h.sound).mp h.valid).2 x hx hrole)
  case has_child => exact h.children_ne_nil hv
  case lands =>
    intro _ c hc
    obtain ⟨y, hy⟩ := Graph.exists_get?_iff.mpr (h.sound.wired.child_lt v x hv c hc)
    exact h.exists_lands hy (h.sound.entered_role hx hc hy).2
  case covers => exact hcovers

/-- With payloads for all tasks and handlers the graph is written, unless a name is used twice. -/
theorem ofGraph_ends (hcovers : ∀ x ∈ g.vertices, t.Covers x) :
    ∃ start finish kill els, g.Framed start finish kill ∧
      g.Written t finish.name kill.name [] g.vertices els ∧
      Ends (Document.Tells · t g start finish kill els)
        (Clashes (claimed finish.name (Document.killElement t kill :: els)))
        (Document.ofGraph t g) := by
  obtain ⟨start, finish, kill, hframed⟩ := ((Document.problems_eq_nil_iff h.sound).mp h.valid).1
  obtain ⟨els, hels, hends⟩ := Document.ofGraph_ends_of_ready h.sound hframed
    fun x hx => h.ready hx (hcovers x hx)
  exact ⟨start, finish, kill, els, hframed, hels, hends⟩

end Graph.WellFormed
end BatchFlow

import BatchFlow.Outline.Layout
import BatchFlow.Proofs.Graph.Drawing

/-!
# The wires of an outline

What a layout draws, said without edits. A row takes up a run of ids; its sites and its wires follow
its shape. It is entered through one port and left through another: the wire out of the port of
entry comes first, and the wire out of the port of exit belongs to what stands behind the row.
-/

namespace BatchFlow

/-- A vertex by its id and its role. -/
abbrev Site := VertexId × Role

/-- What a node becomes. -/
def Node.task (n : Node) : Task := ⟨n.id, n.action, n.handler⟩

mutual

/-- How many vertices a row takes up. -/
def Row.size : Row → Nat
  | .done => 0
  | .task _ next => next.size + 1
  | .fork arms next => arms.size + next.size + 2
  | .decision arms next => arms.size + next.size + 2

def Arms.size : Arms → Nat
  | .none => 0
  | .arm _ row more => row.size + more.size

end

/-- The conditions of the arms in order. -/
def Arms.conditions : Arms → List (Option Condition)
  | .none => []
  | .arm c _ more => c :: more.conditions

mutual

/-- The sites of a row whose first vertex has a given id. -/
def Row.sites : Row → VertexId → List Site
  | .done, _ => []
  | .task n next, p => (p, .task n.task) :: next.sites (p + 1)
  | .fork arms next, p =>
      (p, .fork) :: (p + 1, .join) :: (arms.sites (p + 2) ++ next.sites (p + 2 + arms.size))
  | .decision arms next, p =>
      (p, .decision) :: (p + 1, .decisionJoin) ::
        (arms.sites (p + 2) ++ next.sites (p + 2 + arms.size))

def Arms.sites : Arms → VertexId → List Site
  | .none, _ => []
  | .arm _ row more, p => row.sites p ++ more.sites (p + row.size)

end

/-- The port behind a row that begins at a given id and is entered through a given port. -/
def Row.exit : Row → Port → VertexId → Port
  | .done, q, _ => q
  | .task _ next, _, p => next.exit ⟨p, 0, none⟩ (p + 1)
  | .fork arms next, _, p => next.exit ⟨p + 1, 0, none⟩ (p + 2 + arms.size)
  | .decision arms next, _, p => next.exit ⟨p + 1, 0, none⟩ (p + 2 + arms.size)

mutual

/-- The wires into the vertices of a row. -/
def Row.wires : Row → Port → VertexId → List Wire
  | .done, _, _ => []
  | .task _ next, q, p => ⟨q, p⟩ :: next.wires ⟨p, 0, none⟩ (p + 1)
  | .fork arms next, q, p
  | .decision arms next, q, p =>
      ⟨q, p⟩ :: (arms.wires p 0 (p + 2) ++ next.wires ⟨p + 1, 0, none⟩ (p + 2 + arms.size))

/-- The wires of arms, those into the closing included. The closing comes right after the
opening, and the arms are numbered from `k`. -/
def Arms.wires : Arms → VertexId → Nat → VertexId → List Wire
  | .none, _, _, _ => []
  | .arm c row more, opening, k, p =>
      row.wires ⟨opening, k, c⟩ p ++ ⟨row.exit ⟨opening, k, c⟩ p, opening + 1⟩ ::
        more.wires opening (k + 1) (p + row.size)

end

/-- The last wire of each arm. -/
def Arms.ends : Arms → Nat → Nat → Nat → List Wire
  | .none, _, _, _ => []
  | .arm c row more, opening, k, p =>
      ⟨row.exit ⟨opening, k, c⟩ p, opening + 1⟩ :: more.ends opening (k + 1) (p + row.size)

/-! ## Where sites and wires lie -/

mutual

theorem Row.length_sites : ∀ (r : Row) (p : VertexId), (r.sites p).length = r.size
  | .done, _ => rfl
  | .task _ next, p => by simp [Row.sites, Row.size, Row.length_sites next]
  | .fork arms next, p
  | .decision arms next, p => by
    simp only [Row.sites, Row.size, List.length_cons, List.length_append, Arms.length_sites arms,
      Row.length_sites next]

theorem Arms.length_sites : ∀ (arms : Arms) (p : VertexId), (arms.sites p).length = arms.size
  | .none, _ => rfl
  | .arm _ row more, p => by
    simp only [Arms.sites, Arms.size, List.length_append, Row.length_sites row,
      Arms.length_sites more]

end

mutual

theorem Row.mem_sites : ∀ (r : Row) (p v : Nat) (role : Role), (v, role) ∈ r.sites p →
    p ≤ v ∧ v < p + r.size
  | .done, _, _, _ => fun h => by cases h
  | .task _ next, p, v, role => fun h => by
    simp only [Row.sites, List.mem_cons, Prod.mk.injEq] at h
    simp only [Row.size]
    rcases h with h | h
    · omega
    · have := Row.mem_sites next (p + 1) v role h
      omega
  | .fork arms next, p, v, role
  | .decision arms next, p, v, role => fun h => by
    simp only [Row.sites, List.mem_cons, List.mem_append, Prod.mk.injEq] at h
    simp only [Row.size]
    rcases h with h | h | h | h
    · omega
    · omega
    · have := Arms.mem_sites arms (p + 2) v role h
      omega
    · have := Row.mem_sites next (p + 2 + arms.size) v role h
      omega

theorem Arms.mem_sites : ∀ (arms : Arms) (p v : Nat) (role : Role), (v, role) ∈ arms.sites p →
    p ≤ v ∧ v < p + arms.size
  | .none, _, _, _ => fun h => by cases h
  | .arm _ row more, p, v, role => fun h => by
    simp only [Arms.sites, List.mem_append] at h
    simp only [Arms.size]
    rcases h with h | h
    · have := Row.mem_sites row p v role h
      omega
    · have := Arms.mem_sites more (p + row.size) v role h
      omega

end

/-- A row without vertices is left through the port of entry, another one through a port of its
own. -/
theorem Row.exit_source : ∀ (r : Row) (q : Port) (p : Nat),
    r.exit q p = q ∧ r.size = 0 ∨ p ≤ (r.exit q p).source ∧ (r.exit q p).source < p + r.size
  | .done, q, p => .inl ⟨rfl, rfl⟩
  | .task _ next, q, p => by
    simp only [exit, size]
    rcases exit_source next ⟨p, 0, none⟩ (p + 1) with h | h
    · rw [h.1]
      right
      show p ≤ p ∧ p < p + (next.size + 1)
      omega
    · exact .inr (by omega)
  | .fork arms next, q, p
  | .decision arms next, q, p => by
    simp only [exit, size]
    rcases exit_source next ⟨p + 1, 0, none⟩ (p + 2 + arms.size) with h | h
    · rw [h.1]
      right
      show p ≤ p + 1 ∧ p + 1 < p + (arms.size + next.size + 2)
      omega
    · exact .inr (by omega)

theorem Row.exit_source_lt {r : Row} {q : Port} {p : Nat} (hq : q.source < p) :
    (r.exit q p).source < p + r.size := by
  rcases r.exit_source q p with h | h
  · rw [h.1]
    omega
  · exact h.2

mutual

/-- The wires of a row end in the row, and they start there or at the port of entry. -/
theorem Row.mem_wires : ∀ (r : Row) (q : Port) (p : Nat) (e : Wire), e ∈ r.wires q p →
    (p ≤ e.target ∧ e.target < p + r.size) ∧
      (e.port = q ∨ p ≤ e.port.source ∧ e.port.source < p + r.size)
  | .done, _, _, _ => fun h => by cases h
  | .task _ next, q, p, e => fun h => by
    simp only [Row.wires, List.mem_cons] at h
    simp only [Row.size]
    rcases h with rfl | h
    · exact ⟨⟨Nat.le_refl p, by simp⟩, .inl rfl⟩
    · obtain ⟨ht, hs⟩ := Row.mem_wires next ⟨p, 0, none⟩ (p + 1) e h
      refine ⟨by omega, .inr ?_⟩
      rcases hs with hs | hs
      · rw [hs]
        show p ≤ p ∧ p < p + (next.size + 1)
        omega
      · omega
  | .fork arms next, q, p, e
  | .decision arms next, q, p, e => fun h => by
    simp only [Row.wires, List.mem_cons, List.mem_append] at h
    simp only [Row.size]
    rcases h with rfl | h | h
    · exact ⟨⟨Nat.le_refl p, by simp⟩, .inl rfl⟩
    · have := Arms.mem_wires arms p 0 (p + 2) e h
      omega
    · obtain ⟨ht, hs⟩ := Row.mem_wires next ⟨p + 1, 0, none⟩ (p + 2 + arms.size) e h
      refine ⟨by omega, .inr ?_⟩
      rcases hs with hs | hs
      · rw [hs]
        show p ≤ p + 1 ∧ p + 1 < p + (arms.size + next.size + 2)
        omega
      · omega

theorem Arms.mem_wires : ∀ (arms : Arms) (opening k p : Nat) (e : Wire),
    e ∈ arms.wires opening k p →
      (e.target = opening + 1 ∨ p ≤ e.target ∧ e.target < p + arms.size) ∧
      (e.port.source = opening ∨ p ≤ e.port.source ∧ e.port.source < p + arms.size)
  | .none, _, _, _, _ => fun h => by cases h
  | .arm c row more, opening, k, p, e => fun h => by
    simp only [Arms.wires, List.mem_append, List.mem_cons] at h
    simp only [Arms.size]
    rcases h with h | rfl | h
    · obtain ⟨ht, hs⟩ := Row.mem_wires row ⟨opening, k, c⟩ p e h
      refine ⟨by omega, hs.imp (fun h => ?_) fun h => by omega⟩
      rw [h]
    · refine ⟨.inl rfl, ?_⟩
      rcases Row.exit_source row ⟨opening, k, c⟩ p with hs | hs
      · exact .inl (by rw [hs.1])
      · exact .inr ⟨hs.1, Nat.lt_of_lt_of_le hs.2 (by omega)⟩
    · have := Arms.mem_wires more opening (k + 1) (p + row.size) e h
      omega

end

theorem Arms.length_ends : ∀ (arms : Arms) (opening k p : Nat),
    (arms.ends opening k p).length = arms.conditions.length
  | .none, _, _, _ => rfl
  | .arm _ _ more, opening, k, _ => congrArg (· + 1) (length_ends more opening (k + 1) _)

theorem Arms.target_of_mem_ends : ∀ {arms : Arms} {opening k p : Nat} {e : Wire},
    e ∈ arms.ends opening k p → e.target = opening + 1
  | .none, _, _, _, _ => fun h => by cases h
  | .arm _ _ more, opening, k, p, e => fun h => by
    rcases List.mem_cons.mp h with rfl | h
    · rfl
    · exact target_of_mem_ends h

theorem Arms.mem_ends : ∀ {arms : Arms} {opening k p : Nat}, opening + 1 < p → ∀ {e : Wire},
    e.target = opening + 1 → (e ∈ arms.wires opening k p ↔ e ∈ arms.ends opening k p)
  | .none, _, _, _ => fun _ _ _ => Iff.rfl
  | .arm c row more, opening, k, p => fun ho e he => by
    rw [wires, ends, List.mem_append, List.mem_cons, List.mem_cons,
      mem_ends (Nat.lt_add_right row.size ho) he, or_iff_right fun hmem => ?_]
    have := (row.mem_wires _ _ e hmem).1
    omega

/-! ## Rows one after the other -/

namespace Row

theorem size_append : ∀ r s : Row, (r.append s).size = r.size + s.size
  | .done, s => by simp [append, size]
  | .task _ next, s => by
    simp only [append, size, size_append next s]
    omega
  | .fork arms next, s
  | .decision arms next, s => by
    simp only [append, size, size_append next s]
    omega

theorem sites_append : ∀ (r s : Row) (p : Nat),
    (r.append s).sites p = r.sites p ++ s.sites (p + r.size)
  | .done, s, p => rfl
  | .task _ next, s, p => by
    have hp : p + (next.size + 1) = p + 1 + next.size := by omega
    simp only [append, sites, size, sites_append next s, hp, List.cons_append]
  | .fork arms next, s, p
  | .decision arms next, s, p => by
    have hp : p + (arms.size + next.size + 2) = p + 2 + arms.size + next.size := by omega
    simp only [append, sites, size, sites_append next s, hp, List.cons_append, List.append_assoc]

theorem exit_append : ∀ (r s : Row) (q : Port) (p : Nat),
    (r.append s).exit q p = s.exit (r.exit q p) (p + r.size)
  | .done, s, q, p => rfl
  | .task _ next, s, q, p => by
    have hp : p + (next.size + 1) = p + 1 + next.size := by omega
    simp only [append, exit, size, exit_append next s, hp]
  | .fork arms next, s, q, p
  | .decision arms next, s, q, p => by
    have hp : p + (arms.size + next.size + 2) = p + 2 + arms.size + next.size := by omega
    simp only [append, exit, size, exit_append next s, hp]

theorem wires_append : ∀ (r s : Row) (q : Port) (p : Nat),
    (r.append s).wires q p = r.wires q p ++ s.wires (r.exit q p) (p + r.size)
  | .done, s, q, p => rfl
  | .task _ next, s, q, p => by
    have hp : p + (next.size + 1) = p + 1 + next.size := by omega
    simp only [append, wires, exit, size, wires_append next s, hp, List.cons_append]
  | .fork arms next, s, q, p
  | .decision arms next, s, q, p => by
    have hp : p + (arms.size + next.size + 2) = p + 2 + arms.size + next.size := by omega
    simp only [append, wires, exit, size, wires_append next s, hp, List.cons_append,
      List.append_assoc]

end Row
end BatchFlow

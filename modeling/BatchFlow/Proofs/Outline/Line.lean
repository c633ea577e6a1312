import BatchFlow.Proofs.Outline.Fitting
import Mathlib.Data.List.Perm.Basic

/-!
# The line of a row

The vertices of a row can be put in one line along which all wires go forward: the opening of a
block, its arms one after the other, the closing, and what stands behind it. Ids are not such a
line, because the closing has its id before the arms have theirs.
-/

namespace BatchFlow

mutual

/-- The ids of a row, with every source before its targets. -/
def Row.line : Row → Nat → List Nat
  | .done, _ => []
  | .task _ next, p => p :: next.line (p + 1)
  | .fork arms next, p
  | .decision arms next, p => p :: (arms.line (p + 2) ++ (p + 1) :: next.line (p + 2 + arms.size))

def Arms.line : Arms → Nat → List Nat
  | .none, _ => []
  | .arm _ row more, p => row.line p ++ more.line (p + row.size)

end

mutual

theorem Row.line_perm : ∀ (r : Row) (p : Nat), (r.line p).Perm (List.range' p r.size)
  | .done, _ => .refl _
  | .task _ next, p => by
    rw [Row.line, Row.size, List.range'_succ]
    exact (Row.line_perm next (p + 1)).cons p
  | .fork arms next, p
  | .decision arms next, p => by
    have hids : List.range' p (arms.size + next.size + 2) =
        p :: (p + 1) :: (List.range' (p + 2) arms.size ++
          List.range' (p + 2 + arms.size) next.size) := by
      rw [List.range'_append_1, List.range'_succ, List.range'_succ]
    rw [Row.line, Row.size, hids]
    refine (List.perm_middle.trans ?_).cons p
    exact ((Arms.line_perm arms (p + 2)).append (Row.line_perm next (p + 2 + arms.size))).cons _

theorem Arms.line_perm : ∀ (arms : Arms) (p : Nat), (arms.line p).Perm (List.range' p arms.size)
  | .none, _ => .refl _
  | .arm _ row more, p => by
    rw [Arms.line, Arms.size, ← List.range'_append_1]
    exact (Row.line_perm row p).append (Arms.line_perm more (p + row.size))

end

theorem Row.mem_line {r : Row} {p v : Nat} : v ∈ r.line p ↔ p ≤ v ∧ v < p + r.size := by
  rw [(r.line_perm p).mem_iff, List.mem_range'_1]

/-- The wire goes forward along the line. -/
def Wire.Forward (e : Wire) (line : List Nat) : Prop :=
  [e.port.source, e.target].Sublist line

theorem Wire.Forward.of_mem {e : Wire} {line line' : List Nat} (hs : e.port.source ∈ line)
    (ht : e.target ∈ line') : e.Forward (line ++ line') :=
  (List.singleton_sublist.mpr hs).append (List.singleton_sublist.mpr ht)

theorem Wire.Forward.mono {e : Wire} {line line' : List Nat} (h : e.Forward line)
    (hsub : line.Sublist line') : e.Forward line' := h.trans hsub

theorem Wire.forward_entry {q : Port} {p : Nat} {line : List Nat} (hp : p ∈ line) :
    (⟨q, p⟩ : Wire).Forward (q.source :: line) :=
  (List.singleton_sublist.mpr hp).cons_cons q.source

theorem Row.exit_mem_line (r : Row) (q : Port) (p : Nat) :
    (r.exit q p).source ∈ q.source :: r.line p := by
  rcases r.exit_source q p with h | h
  · rw [h.1]
    exact List.mem_cons_self
  · exact List.mem_cons_of_mem _ (Row.mem_line.mpr h)

/-- The entry of a block, its arms and what stands behind it, given that the latter go forward. -/
theorem Arms.forward_block {arms : Arms} {next : Row} {q : Port} {p : Nat}
    (harms : ∀ e ∈ arms.wires p 0 (p + 2), e.Forward (p :: (arms.line (p + 2) ++ [p + 1])))
    (hnext : ∀ e ∈ next.wires ⟨p + 1, 0, .none⟩ (p + 2 + arms.size),
      e.Forward ((p + 1) :: next.line (p + 2 + arms.size)))
    {e : Wire} (he : e ∈ ⟨q, p⟩ :: (arms.wires p 0 (p + 2) ++
      next.wires ⟨p + 1, 0, .none⟩ (p + 2 + arms.size))) :
    e.Forward (q.source :: p ::
      (arms.line (p + 2) ++ (p + 1) :: next.line (p + 2 + arms.size))) := by
  rcases List.mem_cons.mp he with rfl | he
  · exact Wire.forward_entry List.mem_cons_self
  rcases List.mem_append.mp he with he | he
  · refine (harms e he).mono (List.Sublist.cons _ (List.Sublist.cons_cons p ?_))
    exact (List.Sublist.refl _).append (List.singleton_sublist.mpr List.mem_cons_self)
  · refine (hnext e he).mono (List.Sublist.cons _ (List.Sublist.cons p ?_))
    exact List.sublist_append_right ..

mutual

/-- The wires of a row go forward from the port of entry on. -/
theorem Row.forward : ∀ (r : Row) (q : Port) (p : Nat), ∀ e ∈ r.wires q p,
    e.Forward (q.source :: r.line p)
  | .done, _, _ => fun e he => by cases he
  | .task _ next, q, p => fun e he => by
    rcases List.mem_cons.mp he with rfl | he
    · exact Wire.forward_entry List.mem_cons_self
    · exact (Row.forward next ⟨p, 0, none⟩ (p + 1) e he).mono (List.sublist_cons_self ..)
  | .fork arms next, q, p
  | .decision arms next, q, p => fun e he =>
    Arms.forward_block (Arms.forward arms p 0 (p + 2))
      (Row.forward next ⟨p + 1, 0, none⟩ (p + 2 + arms.size)) he

/-- The wires of arms go forward from the opening to the closing. -/
theorem Arms.forward : ∀ (arms : Arms) (opening k p : Nat), ∀ e ∈ arms.wires opening k p,
    e.Forward (opening :: (arms.line p ++ [opening + 1]))
  | .none, _, _, _ => fun e he => by cases he
  | .arm c row more, opening, k, p => fun e he => by
    rw [Arms.wires, List.mem_append, List.mem_cons] at he
    rw [Arms.line, List.append_assoc]
    rcases he with he | rfl | he
    · refine (Row.forward row ⟨opening, k, c⟩ p e he).mono (List.Sublist.cons_cons opening ?_)
      exact List.sublist_append_left ..
    · rw [← List.cons_append]
      refine .of_mem (row.exit_mem_line ⟨opening, k, c⟩ p) ?_
      exact List.mem_append_right _ (List.mem_singleton_self _)
    · refine (Arms.forward more opening (k + 1) (p + row.size) e he).mono ?_
      exact (List.sublist_append_right ..).cons_cons opening

end

/-! ## From the start to the end -/

theorem Wire.Forward.idxOf_lt {e : Wire} {line : List Nat} (hnodup : line.Nodup)
    (h : e.Forward line) : line.idxOf e.port.source < line.idxOf e.target := by
  obtain ⟨before, behind, rfl, hs, ht⟩ := List.cons_sublist_iff.mp h
  have htarget : e.target ∉ before := fun hmem =>
    (List.nodup_append.mp hnodup).2.2 _ hmem _ (List.singleton_sublist.mp ht) rfl
  rw [List.idxOf_append_of_mem hs, List.idxOf_append_of_notMem htarget]
  exact Nat.lt_add_right _ (List.idxOf_lt_length_iff.mpr hs)

namespace Row

/-- The line of all vertices but the kill vertex. -/
def fullLine (r : Row) : List Nat := 0 :: (r.line 2 ++ [1])

/-- The place of a vertex in the line. -/
def position (r : Row) (v : Nat) : Nat := r.fullLine.idxOf v

theorem fullLine_perm (r : Row) : r.fullLine.Perm (List.range (2 + r.size)) := by
  have hids : List.range (2 + r.size) = 0 :: 1 :: List.range' 2 r.size := by
    rw [List.range_eq_range', Nat.add_comm, List.range'_succ, List.range'_succ]
  rw [fullLine, hids]
  refine List.Perm.cons 0 (List.perm_middle.trans ?_)
  rw [List.append_nil]
  exact (r.line_perm 2).cons 1

theorem position_lt (r : Row) {v : Nat} : r.position v < 2 + r.size ↔ v < 2 + r.size := by
  have hlen := r.fullLine_perm.length_eq
  rw [List.length_range] at hlen
  have hmem : r.position v < r.fullLine.length ↔ v ∈ r.fullLine := List.idxOf_lt_length_iff
  rw [← hlen, hmem, r.fullLine_perm.mem_iff, List.mem_range, hlen]

/-- All wires go forward. -/
theorem position_lt_position {r : Row} {e : Wire} (he : e ∈ r.wiresTo ⟨0, 0, none⟩ 2 1) :
    r.position e.port.source < r.position e.target := by
  refine Wire.Forward.idxOf_lt (r.fullLine_perm.nodup_iff.mpr List.nodup_range) ?_
  rw [fullLine, ← List.cons_append]
  rcases List.mem_append.mp he with he | he
  · exact (r.forward ⟨0, 0, none⟩ 2 e he).mono (List.sublist_append_left ..)
  · rw [List.mem_singleton.mp he]
    exact .of_mem (r.exit_mem_line ⟨0, 0, none⟩ 2) (List.mem_singleton_self 1)

end Row
end BatchFlow

import BatchFlow.Proofs.Lowering.Drawn
import BatchFlow.Proofs.Lowering.Wrapping
import BatchFlow.Proofs.Outline.Stretches

/-!
# Parts of a row

A row may stand within another one: behind some of its first vertices, before some of its last ones,
or in an arm of one of its blocks. Then its sites, its blocks and its wires are among those of the
other row. In a row that traces a workflow, each node with what bridges it is such a part, so what
comes right behind the vertex of the node can be read off the bridge.
-/

namespace BatchFlow

/-- The row `s`, whose ids begin at `v`, stands within the row `r`, whose ids begin at `p`. -/
structure Row.StandsIn (s : Row) (v : Nat) (r : Row) (p : Nat) : Prop where
  sites : s.sites v ⊆ r.sites p
  frames : s.frames v ⊆ r.frames p
  /-- The part is entered through some port and leads to some place. -/
  wires : ∀ q t, ∃ q' t', s.wiresTo q' v t' ⊆ r.wiresTo q p t

theorem Row.frames_append : ∀ (r s : Row) (p : Nat),
    (r.append s).frames p = r.frames p ++ s.frames (p + r.size)
  | .done, s, p => rfl
  | .task _ next, s, p => by
    have hp : p + (next.size + 1) = p + 1 + next.size := by omega
    simp only [append, frames, size, frames_append next s, hp]
  | .fork arms next, s, p
  | .decision arms next, s, p => by
    have hp : p + (arms.size + next.size + 2) = p + 2 + arms.size + next.size := by omega
    simp only [append, frames, size, frames_append next s, hp, List.cons_append,
      List.append_assoc]

/-! ## Arms -/

theorem Arms.sites_of_lane : ∀ {arms : Arms} {p : Nat} {l : Lane}, l ∈ arms.lanes p →
    l.row.sites l.first ⊆ arms.sites p
  | .none, _, _ => fun h => by cases h
  | .arm _ _ more, _, _ => fun h => by
    rcases List.mem_cons.mp h with rfl | h
    · exact List.subset_append_left _ _
    · exact List.subset_append_of_subset_right _ (sites_of_lane h)

theorem Arms.frames_of_lane : ∀ {arms : Arms} {p : Nat} {l : Lane}, l ∈ arms.lanes p →
    l.row.frames l.first ⊆ arms.frames p
  | .none, _, _ => fun h => by cases h
  | .arm _ _ more, _, _ => fun h => by
    rcases List.mem_cons.mp h with rfl | h
    · exact List.subset_append_left _ _
    · exact List.subset_append_of_subset_right _ (frames_of_lane h)

theorem Arms.wires_of_lane (opening : Nat) : ∀ {arms : Arms} (k : Nat) {p : Nat} {l : Lane},
    l ∈ arms.lanes p → ∃ q, l.row.wiresTo q l.first (opening + 1) ⊆ arms.wires opening k p
  | .none, _, _, _ => fun h => by cases h
  | .arm c row more, k, p, l => fun h => by
    rw [Arms.wires_arm]
    rcases List.mem_cons.mp h with rfl | h
    · exact ⟨⟨opening, k, c⟩, List.subset_append_left _ _⟩
    · obtain ⟨q, hq⟩ := wires_of_lane opening (k + 1) h
      exact ⟨q, List.subset_append_of_subset_right _ hq⟩

namespace Row.StandsIn

variable {r s row next : Row} {arms : Arms} {u v p : Nat}

theorem refl (r : Row) (p : Nat) : r.StandsIn p r p :=
  ⟨List.Subset.refl _, List.Subset.refl _, fun q t => ⟨q, t, List.Subset.refl _⟩⟩

theorem trans (h : row.StandsIn u s v) (h' : s.StandsIn v r p) : row.StandsIn u r p := by
  refine ⟨List.Subset.trans h.sites h'.sites, List.Subset.trans h.frames h'.frames, fun q t => ?_⟩
  obtain ⟨q₁, t₁, h₁⟩ := h'.wires q t
  obtain ⟨q₂, t₂, h₂⟩ := h.wires q₁ t₁
  exact ⟨q₂, t₂, List.Subset.trans h₂ h₁⟩

theorem behind_task (n : Node) (next : Row) (p : Nat) :
    next.StandsIn (p + 1) (.task n next) p :=
  ⟨List.subset_cons_self _ _, List.Subset.refl _,
    fun q t => ⟨⟨p, 0, none⟩, t, by rw [wiresTo_task]; exact List.subset_cons_self _ _⟩⟩

theorem before (r s : Row) (p : Nat) : r.StandsIn p (r.append s) p := by
  refine ⟨?_, ?_, fun q t => ?_⟩
  · rw [sites_append]
    exact List.subset_append_left _ _
  · rw [frames_append]
    exact List.subset_append_left _ _
  -- The wire that leaves the first row is the one that enters the second.
  · obtain ⟨rest, hrest, -⟩ := s.wiresTo_eq_cons (r.exit q p) (p + r.size) t
    refine ⟨q, s.head (p + r.size) t, ?_⟩
    have hsplit : (r.append s).wiresTo q p t =
        r.wires q p ++ s.wiresTo (r.exit q p) (p + r.size) t := by
      simp only [wiresTo, wires_append, exit_append, List.append_assoc]
    rw [hsplit, hrest]
    exact List.append_subset.mpr ⟨List.subset_append_left _ _,
      List.subset_append_of_subset_right _ (List.cons_subset_cons _ (List.nil_subset _))⟩

theorem behind (r s : Row) (p : Nat) : s.StandsIn (p + r.size) (r.append s) p := by
  refine ⟨?_, ?_, fun q t => ⟨r.exit q p, t, ?_⟩⟩
  · rw [sites_append]
    exact List.subset_append_right _ _
  · rw [frames_append]
    exact List.subset_append_right _ _
  · simp only [wiresTo, wires_append, exit_append, List.append_assoc]
    exact List.subset_append_right _ _

/-- The arms of a block stand within the row that begins with the block. -/
theorem in_block {opening : Role} {l : Lane} (h : r.IsBlock opening arms next)
    (hl : l ∈ arms.lanes (p + 2)) : l.row.StandsIn l.first r p := by
  refine ⟨fun x hx => ?_, fun x hx => ?_, fun q t => ?_⟩
  · simp only [h.sites_eq, List.mem_cons, List.mem_append]
    exact .inr (.inr (.inl (Arms.sites_of_lane hl hx)))
  · simp only [h.frames_eq, List.mem_cons, List.mem_append]
    exact .inr (.inl (Arms.frames_of_lane hl hx))
  · obtain ⟨q', hq'⟩ := Arms.wires_of_lane p 0 hl
    refine ⟨q', p + 1, fun e he => ?_⟩
    rw [h.wiresTo_eq, List.mem_cons, List.mem_append]
    exact .inr (.inl (hq' he))

/-- Behind a task comes the head of what stands behind it. -/
theorem wire_behind {n : Node} (h : (Row.task n next).StandsIn v r p) (q : Port) (t : Nat) :
    ∃ t', ⟨⟨v, 0, none⟩, next.head (v + 1) t'⟩ ∈ r.wiresTo q p t := by
  obtain ⟨q', t', hsub⟩ := h.wires q t
  obtain ⟨rest, hrest, -⟩ := next.wiresTo_eq_cons ⟨v, 0, none⟩ (v + 1) t'
  refine ⟨t', hsub ?_⟩
  rw [wiresTo_task, hrest]
  exact List.mem_cons_of_mem _ List.mem_cons_self

end Row.StandsIn

/-! ## Nodes with their bridges -/

/-- In the row `r`, whose ids begin at `p`, the vertex `v` stands for a node of the workflow, and
what bridges the node comes right behind it. -/
def Row.BridgedAt (w : Workflow) (v : Nat) (t : Task) (r : Row) (p : Nat) : Prop :=
  ∃ n inner rest, w.node? n.id = some n ∧ t = n.task ∧ Row.Bridges w (.node n.id) inner ∧
    (Row.task n (inner.append rest)).StandsIn v r p

section

variable {w : Workflow}

theorem Row.BridgedAt.trans {r s : Row} {v p p' : Nat} {t : Task} (h : Row.BridgedAt w v t s p')
    (h' : s.StandsIn p' r p) : Row.BridgedAt w v t r p := by
  obtain ⟨n, inner, rest, hn, ht, hb, hpart⟩ := h
  exact ⟨n, inner, rest, hn, ht, hb, hpart.trans h'⟩

theorem Row.IsBlock.bridgedAt {r : Row} {arms : Arms} {opening : Role} {p v : Nat} {t : Task}
    (h : r.IsBlock opening arms .done)
    (harms : (v, .task t) ∈ arms.sites (p + 2) →
      ∃ l ∈ arms.lanes (p + 2), Row.BridgedAt w v t l.row l.first)
    (hv : (v, .task t) ∈ r.sites p) : Row.BridgedAt w v t r p := by
  rcases h.task_mem_sites_iff.mp hv with hv | hv
  · obtain ⟨l, hl, hlane⟩ := harms hv
    exact hlane.trans (.in_block h hl)
  · cases hv

mutual

/-- In a row that traces a workflow, every task is bridged. -/
theorem Row.Traces.bridgedAt (hw : w.Sound) {id stop : NodeId} {r : Row} :
    Row.Traces w id stop r → ∀ (p v : Nat) (t : Task), (v, .task t) ∈ r.sites p →
      Row.BridgedAt w v t r p
  | .done _ => fun _ _ _ h => by cases h
  | @Row.Traces.task _ id stop n inner next hne hn hb ht => fun p v t h => by
    rw [Row.sites, Row.sites_append, List.mem_cons, List.mem_append] at h
    rcases h with h | h | h
    · obtain ⟨rfl, htask⟩ := Prod.mk.inj h
      obtain rfl : id = n.id := (hw.dag.id_eq id n hn).symm
      exact ⟨n, inner, next, hn, Role.task.inj htask, hb, .refl _ _⟩
    · have hinner := Row.Bridges.bridgedAt hw hb (p + 1) v t h
      exact (hinner.trans (.before inner next (p + 1))).trans (.behind_task n _ p)
    · have hnext := Row.Traces.bridgedAt hw ht (p + 1 + inner.size) v t h
      exact (hnext.trans (.behind inner next (p + 1))).trans (.behind_task n _ p)

theorem Row.Bridges.bridgedAt (hw : w.Sound) {a : Place} {r : Row} :
    Row.Bridges w a r → ∀ (p v : Nat) (t : Task), (v, .task t) ∈ r.sites p →
      Row.BridgedAt w v t r p
  | .skip _ _ => fun _ _ _ h => by cases h
  | .single _ _ ht => Row.Traces.bridgedAt hw ht
  | .fork _ _ ht => fun p v t =>
    (Row.IsBlock.fork _ .done).bridgedAt (Arms.Traces.bridgedAt hw ht (p + 2) v t)
  | .decision _ ht => fun p v t =>
    (Row.IsBlock.decision _ .done).bridgedAt (Arms.Traces.bridgedAt hw ht (p + 2) v t)

theorem Arms.Traces.bridgedAt (hw : w.Sound) {merge : NodeId}
    {heads : List (NodeId × Option Condition)} {arms : Arms} :
    Arms.Traces w merge heads arms → ∀ (p v : Nat) (t : Task), (v, .task t) ∈ arms.sites p →
      ∃ l ∈ arms.lanes p, Row.BridgedAt w v t l.row l.first
  | .none _ => fun _ _ _ h => by cases h
  | @Arms.Traces.arm _ _ _ c row _ more ht hmore => fun p v t h => by
    rcases List.mem_append.mp h with h | h
    · exact ⟨⟨c, row, p⟩, List.mem_cons_self, Row.Traces.bridgedAt hw ht p v t h⟩
    · obtain ⟨l, hl, hlane⟩ := Arms.Traces.bridgedAt hw hmore (p + row.size) v t h
      exact ⟨l, List.mem_cons_of_mem _ hl, hlane⟩

end

/-- A row that traces a stretch of some length begins with the first node. -/
theorem Row.Traces.exists_task (hw : w.Sound) {id stop : NodeId} {r : Row}
    (h : Row.Traces w id stop r) (hne : id ≠ stop) : ∃ n next, n.id = id ∧ r = .task n next := by
  cases h with
  | done => exact absurd rfl hne
  | @task _ _ n _ _ _ hn _ _ => exact ⟨n, _, hw.dag.id_eq id n hn, rfl⟩

theorem Row.Traces.eq_done {id stop : NodeId} {r : Row} (h : Row.Traces w id stop r)
    (heq : id = stop) : r = .done := by
  cases h with
  | done => rfl
  | task hne _ _ _ => exact absurd heq hne

/-- The arms in order: an arm whose head is the merge point is passed through, and any other one
begins with the vertex of its head. -/
theorem Arms.Traces.forall₂_lanes (hw : w.Sound) {merge : NodeId}
    {heads : List (NodeId × Option Condition)} {arms : Arms} :
    Arms.Traces w merge heads arms → ∀ p closing, List.Forall₂
      (fun h (l : Lane) => l.condition = h.2 ∧
        if h.1 = merge then l.row.head l.first closing = closing
        else ∃ t, t.source = h.1 ∧ (l.row.head l.first closing, .task t) ∈ arms.sites p)
      heads (arms.lanes p)
  | .none _ => fun _ _ => .nil
  | @Arms.Traces.arm _ merge head c row heads more ht hmore => fun p closing => by
    refine .cons ⟨rfl, ?_⟩ ?_
    · by_cases hm : head = merge
      · obtain rfl := ht.eq_done hm
        rw [if_pos hm, Row.head]
      · obtain ⟨n, next, hid, rfl⟩ := ht.exists_task hw hm
        rw [if_neg hm]
        exact ⟨n.task, hid, List.mem_append_left _ List.mem_cons_self⟩
    · refine (Arms.Traces.forall₂_lanes hw hmore (p + row.size) closing).imp fun h l hl => ?_
      refine ⟨hl.1, ?_⟩
      by_cases hm : h.1 = merge
      · simpa only [if_pos hm] using hl.2
      · simp only [if_neg hm] at hl ⊢
        obtain ⟨-, t, ht, hsite⟩ := hl
        exact ⟨t, ht, List.mem_append_right _ hsite⟩

end

/-- What leaves an opening, arm by arm. -/
theorem Arms.map_arc_wiresFrom : ∀ (arms : Arms) {opening k p : Nat}, opening < p →
    (wiresFrom (arms.wires opening k p) opening).map Wire.arc =
      (arms.lanes p).map fun l => ⟨l.row.head l.first (opening + 1), l.condition⟩
  | .none, _, _, _, _ => rfl
  | .arm c row more, opening, k, p, ho => by
    have hfirst := row.wiresFrom_entry (q := ⟨opening, k, c⟩) (opening + 1) ho
    have hmore := map_arc_wiresFrom more (k := k + 1) (Nat.lt_add_right row.size ho)
    rw [wires_arm, wiresFrom_append, hfirst, List.map_append, hmore]
    rfl

end BatchFlow

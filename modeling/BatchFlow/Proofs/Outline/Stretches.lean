import BatchFlow.Proofs.Outline.Frames

/-!
# Stretches of wires

Of all wires of a row, those that touch the run of ids of a frame stand together; the others keep
away from it. Within the frame the same is true of each lane, which is the row of an arm with the
ids that it takes up. So the wires at a vertex of a block can be read off the block alone: what
leaves its opening and what comes into its closing are the first and the last wires of its lanes.
-/

namespace BatchFlow

/-- The wire neither starts nor ends in a run of ids. -/
def Wire.Clear (e : Wire) (p size : Nat) : Prop :=
  (e.port.source < p ∨ p + size ≤ e.port.source) ∧ (e.target < p ∨ p + size ≤ e.target)

/-- Among the wires stands a part that has all wires at a run of ids. -/
def Stretch (part ws : List Wire) (p size : Nat) : Prop :=
  ∃ before after, ws = before ++ (part ++ after) ∧
    (∀ e ∈ before, e.Clear p size) ∧ ∀ e ∈ after, e.Clear p size

namespace Stretch

variable {part part' ws ws' : List Wire} {p p' size size' v : Nat}

theorem refl (ws : List Wire) (p size : Nat) : Stretch ws ws p size :=
  ⟨[], [], by simp, by simp, by simp⟩

theorem append_left (h : Stretch part ws p size) (hclear : ∀ e ∈ ws', e.Clear p size) :
    Stretch part (ws' ++ ws) p size := by
  obtain ⟨before, after, rfl, hbefore, hafter⟩ := h
  refine ⟨ws' ++ before, after, (List.append_assoc ..).symm, fun e he => ?_, hafter⟩
  exact (List.mem_append.mp he).elim (hclear e) (hbefore e)

theorem append_right (h : Stretch part ws p size) (hclear : ∀ e ∈ ws', e.Clear p size) :
    Stretch part (ws ++ ws') p size := by
  obtain ⟨before, after, rfl, hbefore, hafter⟩ := h
  refine ⟨before, after ++ ws', by simp only [List.append_assoc], hbefore, fun e he => ?_⟩
  exact (List.mem_append.mp he).elim (hafter e) (hclear e)

/-- A part of a part. -/
theorem trans (h : Stretch part ws p size) (h' : Stretch part' part p' size') (hp : p ≤ p')
    (hsize : p' + size' ≤ p + size) : Stretch part' ws p' size' := by
  obtain ⟨before, after, rfl, hbefore, hafter⟩ := h
  have hmono : ∀ e : Wire, e.Clear p size → e.Clear p' size' := by
    intro e he
    unfold Wire.Clear at he ⊢
    omega
  exact (h'.append_right fun e he => hmono e (hafter e he)).append_left
    fun e he => hmono e (hbefore e he)

theorem mem_of_touch (h : Stretch part ws p size) {e : Wire} (he : e ∈ ws)
    (htouch : p ≤ e.port.source ∧ e.port.source < p + size ∨ p ≤ e.target ∧ e.target < p + size) :
    e ∈ part := by
  obtain ⟨before, after, rfl, hbefore, hafter⟩ := h
  have hnear : ¬ e.Clear p size := by
    unfold Wire.Clear
    omega
  rcases List.mem_append.mp he with he | he
  · exact absurd (hbefore e he) hnear
  rcases List.mem_append.mp he with he | he
  · exact he
  · exact absurd (hafter e he) hnear

theorem wiresFrom_eq (h : Stretch part ws p size) (hp : p ≤ v) (hsize : v < p + size) :
    wiresFrom ws v = wiresFrom part v := by
  obtain ⟨before, after, rfl, hbefore, hafter⟩ := h
  have hnil : ∀ ws' : List Wire, (∀ e ∈ ws', e.Clear p size) → wiresFrom ws' v = [] := by
    intro ws' hws
    refine wiresFrom_eq_nil fun e he => ?_
    have := (hws e he).1
    omega
  rw [wiresFrom_append, wiresFrom_append, hnil before hbefore, hnil after hafter,
    List.append_nil, List.nil_append]

theorem wiresInto_eq (h : Stretch part ws p size) (hp : p ≤ v) (hsize : v < p + size) :
    wiresInto ws v = wiresInto part v := by
  obtain ⟨before, after, rfl, hbefore, hafter⟩ := h
  have hnil : ∀ ws' : List Wire, (∀ e ∈ ws', e.Clear p size) → wiresInto ws' v = [] := by
    intro ws' hws
    refine wiresInto_eq_nil fun e he => ?_
    have := (hws e he).2
    omega
  rw [wiresInto_append, wiresInto_append, hnil before hbefore, hnil after hafter,
    List.append_nil, List.nil_append]

end Stretch

/-! ## The wires at a frame -/

/-- The wires of a row that come in from the port of entry go to its first vertex, and those that go
out come from the port of exit. -/
theorem Row.wiresTo_border {r : Row} {q : Port} {p t : Nat} {e : Wire} (he : e ∈ r.wiresTo q p t) :
    (p ≤ e.port.source ∨ e = ⟨q, r.head p t⟩) ∧
      (e = ⟨r.exit q p, t⟩ ∨ p ≤ e.target ∧ e.target < p + r.size) := by
  constructor
  · obtain ⟨rest, hrest, hsource⟩ := r.wiresTo_eq_cons q p t
    rw [hrest] at he
    rcases List.mem_cons.mp he with he | he
    · exact .inr he
    · exact .inl (hsource e he)
  · rcases List.mem_append.mp he with he | he
    · exact .inr (r.mem_wires q p e he).1
    · exact .inl (List.mem_singleton.mp he)

theorem Row.head_of_size_pos {r : Row} {p t : Nat} (h : 0 < r.size) : r.head p t = p := by
  cases r with
  | done => exact absurd h (Nat.lt_irrefl 0)
  | task | fork | decision => rfl

/-- A row without vertices is passed through. -/
theorem Row.of_size_eq_zero {r : Row} (h : r.size = 0) (q : Port) (p t : Nat) :
    r.exit q p = q ∧ r.head p t = t := by
  cases r with
  | done => exact ⟨rfl, rfl⟩
  | task | fork | decision => simp [Row.size] at h

/-- The wires at a block: the one into it, those of its arms, and the one out of it. -/
def Frame.wires (f : Frame) (q : Port) (t : Nat) : List Wire :=
  ⟨q, f.opening⟩ :: (f.arms.wires f.opening 0 (f.opening + 2) ++ [⟨⟨f.opening + 1, 0, none⟩, t⟩])

theorem Frame.mem_wires {f : Frame} {q : Port} {t : Nat} {e : Wire} (he : e ∈ f.wires q t) :
    (e = ⟨q, f.opening⟩ ∨ f.Holds e.port.source) ∧
      (e = ⟨⟨f.opening + 1, 0, none⟩, t⟩ ∨ f.Holds e.target) := by
  simp only [wires, List.mem_cons, List.mem_append, List.not_mem_nil, or_false] at he
  simp only [Holds, size]
  rcases he with rfl | he | rfl
  · exact ⟨.inl rfl, .inr (by simp)⟩
  · have := f.arms.mem_wires f.opening 0 (f.opening + 2) e he
    omega
  · exact ⟨.inr (by simp), .inl rfl⟩

/-- The wires at a block of a row stand together, between a port outside and a target outside. -/
def Frame.Lies (f : Frame) (ws : List Wire) : Prop :=
  ∃ q t, ¬ f.Holds q.source ∧ ¬ f.Holds t ∧ Stretch (f.wires q t) ws f.opening f.size

namespace Frame.Lies

variable {f : Frame} {ws ws' : List Wire}

theorem append_left (h : f.Lies ws) (hclear : ∀ e ∈ ws', e.Clear f.opening f.size) :
    f.Lies (ws' ++ ws) := by
  obtain ⟨q, t, hq, ht, hws⟩ := h
  exact ⟨q, t, hq, ht, hws.append_left hclear⟩

theorem append_right (h : f.Lies ws) (hclear : ∀ e ∈ ws', e.Clear f.opening f.size) :
    f.Lies (ws ++ ws') := by
  obtain ⟨q, t, hq, ht, hws⟩ := h
  exact ⟨q, t, hq, ht, hws.append_right hclear⟩

/-- What leaves the opening are the wires of the arms. -/
theorem wiresFrom_opening (h : f.Lies ws) : wiresFrom ws f.opening =
    wiresFrom (f.arms.wires f.opening 0 (f.opening + 2)) f.opening := by
  obtain ⟨q, t, hq, ht, hws⟩ := h
  have hsource : q.source ≠ f.opening := by
    simp only [Holds, size] at hq
    omega
  have hlast : wiresFrom [⟨⟨f.opening + 1, 0, none⟩, t⟩] f.opening = [] :=
    wiresFrom_eq_nil (List.forall_mem_singleton.mpr (Nat.succ_ne_self f.opening))
  rw [hws.wiresFrom_eq (Nat.le_refl _) (by rw [size]; omega), wires, wiresFrom_cons,
    if_neg hsource, wiresFrom_append, hlast, List.append_nil, List.nil_append]

/-- What comes into the closing are the last wires of the arms. -/
theorem wiresInto_closing (h : f.Lies ws) : wiresInto ws (f.opening + 1) =
    f.arms.ends f.opening 0 (f.opening + 2) := by
  obtain ⟨q, t, hq, ht, hws⟩ := h
  have htarget : t ≠ f.opening + 1 := by
    simp only [Holds, size] at ht
    omega
  have hlast : wiresInto [⟨⟨f.opening + 1, 0, none⟩, t⟩] (f.opening + 1) = [] :=
    wiresInto_eq_nil (List.forall_mem_singleton.mpr htarget)
  rw [hws.wiresInto_eq (Nat.le_succ _) (by rw [size]; omega), wires, wiresInto_cons,
    if_neg (Nat.succ_ne_self f.opening).symm, wiresInto_append, hlast, List.append_nil,
    List.nil_append, f.arms.wiresInto_closing _ _ _ (Nat.lt_succ_self _)]

end Frame.Lies

/-- The wire into a vertex keeps away from what comes behind the vertex. -/
theorem Wire.clear_entry {q : Port} {p v size : Nat} (hq : q.source < v) (hp : p < v) :
    ∀ e ∈ [(⟨q, p⟩ : Wire)], e.Clear v size :=
  List.forall_mem_singleton.mpr ⟨.inl hq, .inl hp⟩

theorem Row.wiresTo_clear {r : Row} {q : Port} {p t v size : Nat}
    (hq : q.source < v ∨ v + size ≤ q.source) (ht : t < v ∨ v + size ≤ t)
    (hr : p + r.size ≤ v ∨ v + size ≤ p) : ∀ e ∈ r.wiresTo q p t, e.Clear v size := by
  intro e he
  have := Row.mem_wiresTo e he
  unfold Wire.Clear
  omega

theorem Arms.wires_clear {arms : Arms} {opening k p v size : Nat} (ho : opening + 1 < v)
    (harms : p + arms.size ≤ v ∨ v + size ≤ p) :
    ∀ e ∈ arms.wires opening k p, e.Clear v size := by
  intro e he
  have := arms.mem_wires opening k p e he
  unfold Wire.Clear
  omega

/-- A block among its own wires and those of the row behind it. -/
theorem Frame.lies_self {arms : Arms} {next : Row} {q : Port} {p t : Nat} (role : Role)
    (hq : q.source < p) (ht : t < p ∨ p + (arms.size + next.size + 2) ≤ t) :
    (⟨p, role, arms⟩ : Frame).Lies (⟨q, p⟩ :: (arms.wires p 0 (p + 2) ++
      next.wiresTo ⟨p + 1, 0, none⟩ (p + 2 + arms.size) t)) := by
  obtain ⟨rest, hrest, hsource⟩ :=
    next.wiresTo_eq_cons ⟨p + 1, 0, none⟩ (p + 2 + arms.size) t
  have hmem : ∀ e ∈ ⟨⟨p + 1, 0, none⟩, next.head (p + 2 + arms.size) t⟩ :: rest,
      e.target = t ∨ p + 2 + arms.size ≤ e.target :=
    fun e he => (Row.mem_wiresTo e (hrest ▸ he)).1.imp_right And.left
  refine ⟨q, next.head (p + 2 + arms.size) t, ?_, ?_, [], rest, ?_, by simp, fun e he => ?_⟩
  · simp only [Holds]
    omega
  · have : next.head (p + 2 + arms.size) t = t ∨
        p + 2 + arms.size ≤ next.head (p + 2 + arms.size) t := hmem _ List.mem_cons_self
    simp only [Holds, size]
    omega
  · rw [hrest]
    simp [wires]
  · have := hsource e he
    have := hmem e (List.mem_cons_of_mem _ he)
    simp only [Wire.Clear, size]
    omega

mutual

/-- The wires at each block of a row stand together. -/
theorem Row.frame_lies : ∀ (r : Row) {q : Port} {p t : Nat}, q.source < p →
    (t < p ∨ p + r.size ≤ t) → ∀ f ∈ r.frames p, f.Lies (r.wiresTo q p t)
  | .done, _, _, _ => fun _ _ f hf => by cases hf
  | .task n next, q, p, t => fun hq ht f hf => by
    have hlt := next.mem_frames (p + 1) f hf
    simp only [Row.size] at ht
    have hnext := Row.frame_lies next (q := ⟨p, 0, none⟩) (t := t) (Nat.lt_succ_self p) (by omega)
      f hf
    rw [Row.wiresTo_task]
    exact hnext.append_left (Wire.clear_entry (by omega) (by omega))
  | .fork arms next, q, p, t
  | .decision arms next, q, p, t => fun hq ht f hf => by
    simp only [Row.size] at ht
    simp only [Row.frames, List.mem_cons, List.mem_append] at hf
    simp only [Row.wiresTo_fork, Row.wiresTo_decision]
    rcases hf with rfl | hf | hf
    · exact Frame.lies_self _ hq ht
    · have hlt := arms.mem_frames (p + 2) f hf
      have harms := Arms.frame_lies arms p 0 (p + 2) (Nat.lt_succ_self _) f hf
      refine (harms.append_right ?_).append_left (Wire.clear_entry (by omega) (by omega))
      exact Row.wiresTo_clear (.inl (show p + 1 < f.opening by omega)) (by omega) (by omega)
    · have hlt := next.mem_frames (p + 2 + arms.size) f hf
      have hnext := Row.frame_lies next (q := ⟨p + 1, 0, none⟩) (t := t)
        (show p + 1 < p + 2 + arms.size by omega) (by omega) f hf
      refine (hnext.append_left ?_).append_left (Wire.clear_entry (by omega) (by omega))
      exact Arms.wires_clear (by omega) (by omega)

theorem Arms.frame_lies : ∀ (arms : Arms) (opening k p : Nat), opening + 1 < p →
    ∀ f ∈ arms.frames p, f.Lies (arms.wires opening k p)
  | .none, _, _, _ => fun _ f hf => by cases hf
  | .arm c row more, opening, k, p => fun ho f hf => by
    rw [Arms.wires_arm]
    rcases List.mem_append.mp hf with hf | hf
    · have hlt := row.mem_frames p f hf
      have hrow := Row.frame_lies row (q := ⟨opening, k, c⟩) (t := opening + 1)
        (show opening < p by omega) (by omega) f hf
      exact hrow.append_right (Arms.wires_clear (by omega) (by omega))
    · have hlt := more.mem_frames (p + row.size) f hf
      have hmore := Arms.frame_lies more opening (k + 1) (p + row.size)
        (Nat.lt_add_right row.size ho) f hf
      refine hmore.append_left (Row.wiresTo_clear ?_ ?_ (by omega))
      · exact .inl (show opening < f.opening by omega)
      · omega

end

/-! ## Lanes -/

/-- An arm by the id that its row begins at. -/
structure Lane where
  condition : Option Condition
  row : Row
  first : Nat

/-- The arms with their first ids. -/
def Arms.lanes : Arms → Nat → List Lane
  | .none, _ => []
  | .arm c row more, p => ⟨c, row, p⟩ :: more.lanes (p + row.size)

theorem Arms.length_lanes (arms : Arms) (p : Nat) :
    (arms.lanes p).length = arms.conditions.length := by
  cases arms with
  | none => rfl
  | arm c row more => exact congrArg (· + 1) (length_lanes more (p + row.size))

theorem Arms.mem_lanes : ∀ (arms : Arms) {p i : Nat} {l : Lane}, (arms.lanes p)[i]? = some l →
    p ≤ l.first ∧ l.first + l.row.size ≤ p + arms.size
  | .none, _, _, _ => fun h => by cases h
  | .arm _ row more, p, i, l => fun h => by
    simp only [Arms.size]
    cases i with
    | zero =>
      cases h
      show p ≤ p ∧ p + row.size ≤ p + (row.size + more.size)
      omega
    | succ i =>
      have := mem_lanes more h
      omega

/-- The wires of an arm stand together. -/
theorem Arms.lane_stretch : ∀ (arms : Arms) {opening k p i : Nat} {l : Lane}, opening + 1 < p →
    (arms.lanes p)[i]? = some l →
      Stretch (l.row.wiresTo ⟨opening, k + i, l.condition⟩ l.first (opening + 1))
        (arms.wires opening k p) l.first l.row.size
  | .none, _, _, _, _, _ => fun _ h => by cases h
  | .arm c row more, opening, k, p, i, l => fun ho h => by
    rw [wires_arm]
    cases i with
    | zero =>
      cases h
      exact (Stretch.refl ..).append_right (wires_clear (by omega) (.inr (Nat.le_refl _)))
    | succ i =>
      have hlt := mem_lanes more h
      have hmore := lane_stretch more (k := k + 1) (Nat.lt_add_right row.size ho) h
      rw [Nat.add_right_comm, Nat.add_assoc] at hmore
      refine hmore.append_left (Row.wiresTo_clear ?_ ?_ (by omega))
      · exact .inl (show opening < l.first by omega)
      · omega

/-- The wire into an arm is the one out of the opening that has the number of the arm. -/
theorem Arms.getElem?_wiresFrom : ∀ (arms : Arms) {opening k p i : Nat} {l : Lane},
    opening < p → (arms.lanes p)[i]? = some l →
      (wiresFrom (arms.wires opening k p) opening)[i]? =
        some ⟨⟨opening, k + i, l.condition⟩, l.row.head l.first (opening + 1)⟩
  | .none, _, _, _, _, _ => fun _ h => by cases h
  | .arm c row more, opening, k, p, i, l => fun ho h => by
    have hfirst := row.wiresFrom_entry (q := ⟨opening, k, c⟩) (opening + 1) ho
    rw [wires_arm, wiresFrom_append, hfirst]
    cases i with
    | zero =>
      cases h
      rfl
    | succ i =>
      have hmore := getElem?_wiresFrom more (k := k + 1) (Nat.lt_add_right row.size ho) h
      rw [Nat.add_right_comm, Nat.add_assoc] at hmore
      exact hmore

theorem Arms.getElem?_ends : ∀ (arms : Arms) (opening k : Nat) {p i : Nat} {l : Lane},
    (arms.lanes p)[i]? = some l → (arms.ends opening k p)[i]? =
      some ⟨l.row.exit ⟨opening, k + i, l.condition⟩ l.first, opening + 1⟩
  | .none, _, _, _, _, _ => fun h => by cases h
  | .arm c row more, opening, k, p, i, l => fun h => by
    cases i with
    | zero =>
      cases h
      rfl
    | succ i =>
      have hmore := getElem?_ends more opening (k + 1) h
      rw [Nat.add_right_comm, Nat.add_assoc] at hmore
      exact hmore

/-- The id belongs to the row of the lane. -/
def Lane.Holds (l : Lane) (v : Nat) : Prop := l.first ≤ v ∧ v < l.first + l.row.size

/-- The last vertex of the lane, or the opening if the lane has none. -/
def Lane.last (l : Lane) (opening i : Nat) : Nat :=
  (l.row.exit ⟨opening, i, l.condition⟩ l.first).source

theorem Lane.holds_last (l : Lane) (opening i : Nat) (hpos : 0 < l.row.size) :
    l.Holds (l.last opening i) := by
  rcases l.row.exit_source ⟨opening, i, l.condition⟩ l.first with h | h
  · omega
  · exact h

theorem Frame.holds_of_lane {f : Frame} {i : Nat} {l : Lane}
    (hl : (f.arms.lanes (f.opening + 2))[i]? = some l) {v : Nat} (hv : l.Holds v) :
    f.Holds v := by
  have hlt := f.arms.mem_lanes hl
  unfold Lane.Holds at hv
  unfold Holds size
  omega

theorem Frame.lane_stretch {f : Frame} {q : Port} {t i : Nat} {l : Lane}
    (hq : ¬ f.Holds q.source) (ht : ¬ f.Holds t)
    (hl : (f.arms.lanes (f.opening + 2))[i]? = some l) :
    Stretch (l.row.wiresTo ⟨f.opening, i, l.condition⟩ l.first (f.opening + 1)) (f.wires q t)
      l.first l.row.size := by
  have hlt := f.arms.mem_lanes hl
  have harms := f.arms.lane_stretch (k := 0) (Nat.lt_succ_self (f.opening + 1)) hl
  rw [Nat.zero_add] at harms
  simp only [Holds, size] at hq ht
  have hin : (⟨q, f.opening⟩ : Wire).Clear l.first l.row.size := by
    show (q.source < l.first ∨ l.first + l.row.size ≤ q.source) ∧
      (f.opening < l.first ∨ l.first + l.row.size ≤ f.opening)
    omega
  have hout : (⟨⟨f.opening + 1, 0, none⟩, t⟩ : Wire).Clear l.first l.row.size := by
    show (f.opening + 1 < l.first ∨ l.first + l.row.size ≤ f.opening + 1) ∧
      (t < l.first ∨ l.first + l.row.size ≤ t)
    omega
  exact (harms.append_right (List.forall_mem_singleton.mpr hout)).append_left
    (List.forall_mem_singleton.mpr hin)

end BatchFlow

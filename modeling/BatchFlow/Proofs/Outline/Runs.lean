import BatchFlow.Proofs.Outline.Fitting

/-!
# Runs through an outline

Control begins at one vertex and follows the wires that are open. What a row does to it depends only
on whether control comes in through the port of entry, as long as it does not begin inside: if it
comes in, it goes out through the port of exit, and if it does not, nothing in the row is entered.
-/

namespace BatchFlow

/-- Control that begins at a vertex and follows open wires. The set of entered vertices is a fixed
point: nothing is entered but the first vertex and what open wires from entered vertices lead to. -/
structure Run where
  wires : List Wire
  /-- Whether the wire at a place among those of a source is open. -/
  isOpen : Nat → Nat → Prop
  first : Nat
  entered : Nat → Prop
  entered_iff : ∀ v, entered v ↔ v = first ∨ ∃ e ∈ wires, e.target = v ∧
    entered e.port.source ∧ isOpen e.port.source e.port.index

/-- Control leaves through the port. -/
def Run.Live (run : Run) (q : Port) : Prop := run.entered q.source ∧ run.isOpen q.source q.index

/-- The wires into the vertices of the row are those of the row. -/
def Row.Owns (r : Row) (ws : List Wire) (q : Port) (p : Nat) : Prop :=
  ∀ e : Wire, p ≤ e.target → e.target < p + r.size → (e ∈ ws ↔ e ∈ r.wires q p)

def Arms.Owns (arms : Arms) (ws : List Wire) (opening k p : Nat) : Prop :=
  ∀ e : Wire, p ≤ e.target → e.target < p + arms.size → (e ∈ ws ↔ e ∈ arms.wires opening k p)

/-- The wires into the opening, the closing and the arms of a block, and into the row behind it. -/
structure Arms.InBlock (arms : Arms) (next : Row) (ws : List Wire) (q : Port) (p : Nat) : Prop where
  opening : ∀ e : Wire, e.target = p → (e ∈ ws ↔ e = ⟨q, p⟩)
  closing : ∀ e : Wire, e.target = p + 1 → (e ∈ ws ↔ e ∈ arms.ends p 0 (p + 2))
  inside : arms.Owns ws p 0 (p + 2)
  behind : next.Owns ws ⟨p + 1, 0, .none⟩ (p + 2 + arms.size)

mutual

/-- Control that gets into the row is never stuck, and every arm of a fork is open. -/
def Row.Opened (isOpen : Nat → Nat → Prop) : Row → Nat → Prop
  | .done, _ => True
  | .task _ next, p => isOpen p 0 ∧ next.Opened isOpen (p + 1)
  | .fork arms next, p =>
      (0 < arms.conditions.length ∧ (∀ i < arms.conditions.length, isOpen p i) ∧
        isOpen (p + 1) 0) ∧
        arms.Opened isOpen (p + 2) ∧ next.Opened isOpen (p + 2 + arms.size)
  | .decision arms next, p =>
      ((∃ i < arms.conditions.length, isOpen p i) ∧ isOpen (p + 1) 0) ∧
        arms.Opened isOpen (p + 2) ∧ next.Opened isOpen (p + 2 + arms.size)

def Arms.Opened (isOpen : Nat → Nat → Prop) : Arms → Nat → Prop
  | .none, _ => True
  | .arm _ row more, p => row.Opened isOpen p ∧ more.Opened isOpen (p + row.size)

end

/-! ## Parts own their wires -/

section Owns

variable {ws : List Wire} {q : Port} {p : Nat}

theorem Row.Owns.task {n : Node} {next : Row} (h : (Row.task n next).Owns ws q p) :
    (∀ e : Wire, e.target = p → (e ∈ ws ↔ e = ⟨q, p⟩)) ∧ next.Owns ws ⟨p, 0, none⟩ (p + 1) := by
  unfold Owns at h
  simp only [wires, size, List.mem_cons] at h
  constructor
  · intro e he
    rw [h e (by omega) (by omega)]
    refine or_iff_left fun hmem => ?_
    have := (next.mem_wires _ _ e hmem).1
    omega
  · intro e hle hlt
    rw [h e (by omega) (by omega)]
    refine or_iff_right fun heq => ?_
    rw [heq] at hle
    exact absurd hle (Nat.not_succ_le_self p)

theorem Arms.inBlock {arms : Arms} {next : Row}
    (h : ∀ e : Wire, p ≤ e.target → e.target < p + (arms.size + next.size + 2) →
      (e ∈ ws ↔ e ∈ Wire.mk q p :: (arms.wires p 0 (p + 2) ++
        next.wires ⟨p + 1, 0, .none⟩ (p + 2 + arms.size)))) : arms.InBlock next ws q p := by
  simp only [List.mem_cons, List.mem_append] at h
  have harms := arms.mem_wires p 0 (p + 2)
  have hnext := next.mem_wires ⟨p + 1, 0, .none⟩ (p + 2 + arms.size)
  have hentry : ∀ e : Wire, e = ⟨q, p⟩ → e.target = p := fun e he => he ▸ rfl
  constructor
  case opening =>
    intro e he
    rw [h e (by omega) (by omega)]
    refine or_iff_left fun hmem => ?_
    rcases hmem with hmem | hmem
    · have := (harms e hmem).1
      omega
    · have := (hnext e hmem).1
      omega
  case closing =>
    intro e he
    rw [h e (by omega) (by omega), Arms.mem_ends (Nat.lt_succ_self _) he,
      or_iff_right fun heq => ?_]
    · refine or_iff_left fun hmem => ?_
      have := (hnext e hmem).1
      omega
    · have := hentry e heq
      omega
  case inside =>
    intro e hle hlt
    rw [h e (by omega) (by omega), or_iff_right fun heq => ?_]
    · refine or_iff_left fun hmem => ?_
      have := (hnext e hmem).1
      omega
    · have := hentry e heq
      omega
  case behind =>
    intro e hle hlt
    rw [h e (by omega) (by omega), or_iff_right fun heq => ?_]
    · refine or_iff_right fun hmem => ?_
      have := (harms e hmem).1
      omega
    · have := hentry e heq
      omega

theorem Row.Owns.fork {arms : Arms} {next : Row} (h : (Row.fork arms next).Owns ws q p) :
    arms.InBlock next ws q p := Arms.inBlock h

theorem Row.Owns.decision {arms : Arms} {next : Row} (h : (Row.decision arms next).Owns ws q p) :
    arms.InBlock next ws q p := Arms.inBlock h

theorem Row.Owns.append {r s : Row} (h : (r.append s).Owns ws q p) :
    r.Owns ws q p ∧ s.Owns ws (r.exit q p) (p + r.size) := by
  unfold Owns at h
  simp only [wires_append, size_append, List.mem_append] at h
  constructor
  · intro e hle hlt
    rw [h e (by omega) (by omega)]
    refine or_iff_left fun hmem => ?_
    have := (s.mem_wires _ _ e hmem).1
    omega
  · intro e hle hlt
    rw [h e (by omega) (by omega)]
    refine or_iff_right fun hmem => ?_
    have := (r.mem_wires _ _ e hmem).1
    omega

theorem Arms.Owns.arm {c : Option Condition} {row : Row} {more : Arms} {opening k : Nat}
    (h : (Arms.arm c row more).Owns ws opening k p) (ho : opening + 1 < p) :
    row.Owns ws ⟨opening, k, c⟩ p ∧ more.Owns ws opening (k + 1) (p + row.size) := by
  unfold Owns at h
  simp only [wires, size, List.mem_append, List.mem_cons] at h
  have hexit : ∀ e : Wire, e = ⟨row.exit ⟨opening, k, c⟩ p, opening + 1⟩ →
      e.target = opening + 1 := fun e he => he ▸ rfl
  constructor
  · intro e hle hlt
    rw [h e (by omega) (by omega)]
    refine or_iff_left fun hmem => ?_
    rcases hmem with heq | hmem
    · have := hexit e heq
      omega
    · have := (more.mem_wires _ _ _ e hmem).1
      omega
  · intro e hle hlt
    rw [h e (by omega) (by omega), or_iff_right fun hmem => ?_]
    · refine or_iff_right fun heq => ?_
      have := hexit e heq
      omega
    · have := (row.mem_wires _ _ e hmem).1
      omega

end Owns

theorem Row.opened_append {isOpen : Nat → Nat → Prop} : ∀ (r s : Row) (p : Nat),
    (r.append s).Opened isOpen p ↔ r.Opened isOpen p ∧ s.Opened isOpen (p + r.size)
  | .done, s, p => by simp [append, Opened, size]
  | .task _ next, s, p => by
    have hp : p + (next.size + 1) = p + 1 + next.size := by omega
    simp only [append, Opened, size, opened_append next s, hp, and_assoc]
  | .fork arms next, s, p
  | .decision arms next, s, p => by
    have hp : p + (arms.size + next.size + 2) = p + 2 + arms.size + next.size := by omega
    simp only [append, Opened, size, opened_append next s, hp, and_assoc]

namespace Run

variable (run : Run)

theorem entered_iff_live (v : Nat) :
    run.entered v ↔ v = run.first ∨ ∃ e ∈ run.wires, e.target = v ∧ run.Live e.port :=
  run.entered_iff v

theorem entered_iff_of_single {q : Port} {p : Nat} (hp : p ≠ run.first)
    (h : ∀ e : Wire, e.target = p → (e ∈ run.wires ↔ e = ⟨q, p⟩)) :
    run.entered p ↔ run.Live q := by
  rw [run.entered_iff_live, or_iff_right hp]
  constructor
  · rintro ⟨e, hmem, ht, hlive⟩
    rw [(h e ht).mp hmem] at hlive
    exact hlive
  · intro hlive
    exact ⟨⟨q, p⟩, (h _ rfl).mpr rfl, rfl, hlive⟩

theorem entered_closing_iff {arms : Arms} {next : Row} {q : Port} {p : Nat}
    (h : arms.InBlock next run.wires q p) (hp : p + 1 ≠ run.first) :
    run.entered (p + 1) ↔ ∃ e ∈ arms.ends p 0 (p + 2), run.Live e.port := by
  rw [run.entered_iff_live, or_iff_right hp]
  constructor
  · rintro ⟨e, hmem, ht, hlive⟩
    exact ⟨e, (h.closing e ht).mp hmem, hlive⟩
  · rintro ⟨e, hmem, hlive⟩
    have ht := Arms.target_of_mem_ends hmem
    exact ⟨e, (h.closing e ht).mpr hmem, ht, hlive⟩

/-- Control begins outside of a stretch of ids. -/
def BeginsOutside (p size : Nat) : Prop := run.first < p ∨ p + size ≤ run.first

theorem BeginsOutside.within {run : Run} {p p' size size' : Nat} (h : run.BeginsOutside p size)
    (hp : p ≤ p') (hsize : p' + size' ≤ p + size) : run.BeginsOutside p' size' := by
  unfold BeginsOutside at h ⊢
  omega

theorem BeginsOutside.ne {run : Run} {p size v : Nat} (h : run.BeginsOutside p size)
    (hp : p ≤ v) (hv : v < p + size) : v ≠ run.first := by
  unfold BeginsOutside at h
  omega

end Run

/-! ## What comes in goes out -/

section Live

variable {run : Run}

/-- A block is left when it is entered, given that each arm is left when it is entered. -/
theorem Arms.InBlock.live_closing {arms : Arms} {next : Row} {q : Port} {p : Nat}
    (h : arms.InBlock next run.wires q p)
    (hsome : ∃ i < arms.conditions.length, run.isOpen p i) (hclose : run.isOpen (p + 1) 0)
    (hfirst : run.BeginsOutside p (arms.size + next.size + 2))
    (harms : ∀ (i : Nat) (e : Wire), (arms.ends p 0 (p + 2))[i]? = some e →
      (run.Live e.port ↔ run.Live ⟨p, 0 + i, .none⟩)) :
    (run.entered p ↔ run.Live q) ∧ (run.Live ⟨p + 1, 0, .none⟩ ↔ run.Live q) := by
  have hopening : run.entered p ↔ run.Live q :=
    run.entered_iff_of_single (hfirst.ne (by omega) (by omega)) h.opening
  refine ⟨hopening, ?_⟩
  have hclosing : run.Live ⟨p + 1, 0, .none⟩ ↔ run.entered (p + 1) := and_iff_left hclose
  rw [hclosing, run.entered_closing_iff h (hfirst.ne (by omega) (by omega)), ← hopening]
  constructor
  · rintro ⟨e, he, hlive⟩
    obtain ⟨i, hi⟩ := List.mem_iff_getElem?.mp he
    exact ((harms i e hi).mp hlive).1
  -- The end of an open arm leads into the closing.
  · intro hp
    obtain ⟨i, hi, hopen⟩ := hsome
    rw [← arms.length_ends p 0 (p + 2)] at hi
    have hend := List.getElem?_eq_getElem hi
    refine ⟨_, List.mem_of_getElem? hend, (harms i _ hend).mpr ⟨hp, ?_⟩⟩
    rw [Nat.zero_add]
    exact hopen

/-- A block and what stands behind it, given the arms and the rest. -/
theorem Arms.InBlock.live_exit {arms : Arms} {next : Row} {q : Port} {p : Nat}
    (h : arms.InBlock next run.wires q p)
    (hsome : ∃ i < arms.conditions.length, run.isOpen p i) (hclose : run.isOpen (p + 1) 0)
    (hfirst : run.BeginsOutside p (arms.size + next.size + 2))
    (harms : run.BeginsOutside (p + 2) arms.size → ∀ (i : Nat) (e : Wire),
      (arms.ends p 0 (p + 2))[i]? = some e → (run.Live e.port ↔ run.Live ⟨p, 0 + i, .none⟩))
    (hnext : run.BeginsOutside (p + 2 + arms.size) next.size →
      (run.Live (next.exit ⟨p + 1, 0, .none⟩ (p + 2 + arms.size)) ↔
        run.Live ⟨p + 1, 0, .none⟩)) :
    run.Live (next.exit ⟨p + 1, 0, .none⟩ (p + 2 + arms.size)) ↔ run.Live q := by
  have hends := harms (hfirst.within (by omega) (by omega))
  have hrest := hnext (hfirst.within (by omega) (by omega))
  exact hrest.trans (h.live_closing hsome hclose hfirst hends).2

mutual

/-- A row is left when it is entered. -/
theorem Row.live_exit : ∀ (r : Row) (q : Port) (p : Nat), r.Owns run.wires q p →
    r.Opened run.isOpen p → run.BeginsOutside p r.size →
      (run.Live (r.exit q p) ↔ run.Live q)
  | .done, _, _ => fun _ _ _ => Iff.rfl
  | .task n next, q, p => fun howns hopen hfirst => by
    simp only [Row.size] at hfirst
    obtain ⟨hentry, hnext⟩ := howns.task
    have hrest := Row.live_exit next ⟨p, 0, none⟩ (p + 1) hnext hopen.2
      (hfirst.within (by omega) (by omega))
    have hp : run.entered p ↔ run.Live q :=
      run.entered_iff_of_single (hfirst.ne (by omega) (by omega)) hentry
    rw [Row.exit, hrest, ← hp]
    exact and_iff_left hopen.1
  | .fork arms next, q, p => fun howns hopen hfirst => by
    have hblock := howns.fork
    have hsome : ∃ i < arms.conditions.length, run.isOpen p i :=
      ⟨0, hopen.1.1, hopen.1.2.1 0 hopen.1.1⟩
    exact hblock.live_exit hsome hopen.1.2.2 hfirst
      (Arms.live_ends arms p 0 (p + 2) hblock.inside hopen.2.1 (Nat.lt_succ_self _))
      (Row.live_exit next ⟨p + 1, 0, none⟩ (p + 2 + arms.size) hblock.behind hopen.2.2)
  | .decision arms next, q, p => fun howns hopen hfirst => by
    have hblock := howns.decision
    exact hblock.live_exit hopen.1.1 hopen.1.2 hfirst
      (Arms.live_ends arms p 0 (p + 2) hblock.inside hopen.2.1 (Nat.lt_succ_self _))
      (Row.live_exit next ⟨p + 1, 0, none⟩ (p + 2 + arms.size) hblock.behind hopen.2.2)

theorem Arms.live_ends : ∀ (arms : Arms) (opening k p : Nat), arms.Owns run.wires opening k p →
    arms.Opened run.isOpen p → opening + 1 < p → run.BeginsOutside p arms.size →
      ∀ (i : Nat) (e : Wire), (arms.ends opening k p)[i]? = some e →
        (run.Live e.port ↔ run.Live ⟨opening, k + i, none⟩)
  | .none, _, _, _ => fun _ _ _ _ i e he => by cases he
  | .arm c row more, opening, k, p => fun howns hopen ho hfirst i e he => by
    simp only [Arms.size] at hfirst
    obtain ⟨hrow, hmore⟩ := howns.arm ho
    cases i with
    | zero =>
      cases he
      exact Row.live_exit row ⟨opening, k, c⟩ p hrow hopen.1 (hfirst.within (by omega) (by omega))
    | succ i =>
      have hrest := Arms.live_ends more opening (k + 1) (p + row.size) hmore hopen.2
        (by omega) (hfirst.within (by omega) (by omega)) i e he
      rw [hrest, Nat.add_right_comm, Nat.add_assoc]

end

end Live
end BatchFlow

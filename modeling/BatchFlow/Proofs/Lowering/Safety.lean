import BatchFlow.Proofs.Lowering.Entered
import BatchFlow.Proofs.Workflow.Built

/-!
# Lowered graphs neither hang nor repeat

Whatever branch each decision takes, the end is entered, a join that is entered is entered through
all of its edges, and any other vertex through exactly one. So no join waits for a branch that was
not taken, and nothing runs twice.
-/

namespace BatchFlow

/-- How a vertex of a role is entered. -/
def Run.Safe (run : Run) (v : Nat) (role : Role) : Prop :=
  match role with
  | .join => ∀ e ∈ run.wires, e.target = v → run.Live e.port
  | _ => ∃! e, e ∈ run.wires ∧ e.target = v ∧ run.Live e.port

theorem Run.safe_iff_of_ne {run : Run} {v : Nat} {role : Role} (h : role ≠ .join) :
    run.Safe v role ↔ ∃! e, e ∈ run.wires ∧ e.target = v ∧ run.Live e.port := by
  cases role <;> first | exact Iff.rfl | exact absurd rfl h

/-- At each decision of a row at most one way out is open. -/
def Row.Exclusive (isOpen : Nat → Nat → Prop) (sites : List Site) : Prop :=
  ∀ v, (v, Role.decision) ∈ sites → ∀ i j, isOpen v i → isOpen v j → i = j

variable {run : Run}

theorem Run.existsUnique_of_single {q : Port} {p : Nat} (hp : p ≠ run.first)
    (h : ∀ e : Wire, e.target = p → (e ∈ run.wires ↔ e = ⟨q, p⟩)) (hv : run.entered p) :
    ∃! e, e ∈ run.wires ∧ e.target = p ∧ run.Live e.port := by
  have hlive := (run.entered_iff_of_single hp h).mp hv
  exact ⟨⟨q, p⟩, ⟨(h _ rfl).mpr rfl, rfl, hlive⟩, fun e ⟨hmem, ht, _⟩ => (h e ht).mp hmem⟩

namespace Arms.InBlock

variable {arms : Arms} {next : Row} {q : Port} {p : Nat}

/-- A join whose opening has all ways open waits for nothing. -/
theorem safe_join (h : arms.InBlock next run.wires q p) (hp : p + 1 ≠ run.first)
    (hall : ∀ i < arms.conditions.length, run.isOpen p i)
    (harms : ∀ (i : Nat) (e : Wire), (arms.ends p 0 (p + 2))[i]? = some e →
      (run.Live e.port ↔ run.Live ⟨p, 0 + i, .none⟩))
    (hv : run.entered (p + 1)) : ∀ e ∈ run.wires, e.target = p + 1 → run.Live e.port := by
  obtain ⟨e, he, hlive⟩ := (run.entered_closing_iff h hp).mp hv
  obtain ⟨i, hi⟩ := List.mem_iff_getElem?.mp he
  have hopening : run.entered p := ((harms i e hi).mp hlive).1
  intro e hmem ht
  obtain ⟨i, hi⟩ := List.mem_iff_getElem?.mp ((h.closing e ht).mp hmem)
  have hlt : i < arms.conditions.length := by
    rw [← arms.length_ends p 0 (p + 2)]
    exact (List.getElem?_eq_some_iff.mp hi).1
  refine (harms i e hi).mpr ⟨hopening, ?_⟩
  rw [Nat.zero_add]
  exact hall i hlt

/-- A decision join whose opening has one way open is entered through one edge. -/
theorem safe_decisionJoin (h : arms.InBlock next run.wires q p) (hp : p + 1 ≠ run.first)
    (hone : ∀ i j, run.isOpen p i → run.isOpen p j → i = j)
    (harms : ∀ (i : Nat) (e : Wire), (arms.ends p 0 (p + 2))[i]? = some e →
      (run.Live e.port ↔ run.Live ⟨p, 0 + i, .none⟩))
    (hv : run.entered (p + 1)) : ∃! e, e ∈ run.wires ∧ e.target = p + 1 ∧ run.Live e.port := by
  have hopen : ∀ (i : Nat) (e : Wire), (arms.ends p 0 (p + 2))[i]? = some e →
      run.Live e.port → run.isOpen p i := by
    intro i e hi hlive
    have := ((harms i e hi).mp hlive).2
    rwa [Nat.zero_add] at this
  obtain ⟨e, he, hlive⟩ := (run.entered_closing_iff h hp).mp hv
  have ht := Arms.target_of_mem_ends he
  refine ⟨e, ⟨(h.closing e ht).mpr he, ht, hlive⟩, ?_⟩
  rintro e' ⟨hmem', ht', hlive'⟩
  -- The ends of two arms are live only if both arms are open.
  obtain ⟨i, hi⟩ := List.mem_iff_getElem?.mp he
  obtain ⟨j, hj⟩ := List.mem_iff_getElem?.mp ((h.closing e' ht').mp hmem')
  have hij := hone i j (hopen i e hi hlive) (hopen j e' hj hlive')
  rw [hij] at hi
  exact Option.some.inj (hj.symm.trans hi)

/-- A block and what stands behind it, given its closing, the arms and the rest. -/
theorem safe (h : arms.InBlock next run.wires q p) {role role' : Role} (hrole : role ≠ .join)
    (hfirst : run.BeginsOutside p (arms.size + next.size + 2))
    (hopen : arms.Opened run.isOpen (p + 2))
    (hclosing : (∀ (i : Nat) (e : Wire), (arms.ends p 0 (p + 2))[i]? = some e →
      (run.Live e.port ↔ run.Live ⟨p, 0 + i, .none⟩)) → run.entered (p + 1) →
        run.Safe (p + 1) role')
    (harms : run.BeginsOutside (p + 2) arms.size → ∀ (v : Nat) (role : Role),
      (v, role) ∈ arms.sites (p + 2) → run.entered v → run.Safe v role)
    (hnext : run.BeginsOutside (p + 2 + arms.size) next.size → ∀ (v : Nat) (role : Role),
      (v, role) ∈ next.sites (p + 2 + arms.size) → run.entered v → run.Safe v role) :
    ∀ (v : Nat) (role'' : Role), (v, role'') ∈ (p, role) :: (p + 1, role') ::
      (arms.sites (p + 2) ++ next.sites (p + 2 + arms.size)) → run.entered v →
        run.Safe v role'' := by
  intro v role'' hv hentered
  have hout : run.BeginsOutside (p + 2) arms.size := hfirst.within (by omega) (by omega)
  simp only [List.mem_cons, List.mem_append, Prod.mk.injEq] at hv
  rcases hv with ⟨rfl, rfl⟩ | ⟨rfl, rfl⟩ | hv | hv
  · rw [Run.safe_iff_of_ne hrole]
    exact run.existsUnique_of_single (hfirst.ne (by omega) (by omega)) h.opening hentered
  · exact hclosing (arms.live_ends p 0 (p + 2) h.inside hopen (Nat.lt_succ_self _) hout) hentered
  · exact harms hout v role'' hv hentered
  · exact hnext (hfirst.within (by omega) (by omega)) v role'' hv hentered

end Arms.InBlock

mutual

theorem Row.safe : ∀ (r : Row) (q : Port) (p : Nat), r.Owns run.wires q p →
    r.Opened run.isOpen p → run.BeginsOutside p r.size → Row.Exclusive run.isOpen (r.sites p) →
      ∀ (v : Nat) (role : Role), (v, role) ∈ r.sites p → run.entered v → run.Safe v role
  | .done, _, _ => fun _ _ _ _ _ _ hv => by cases hv
  | .task n next, q, p => fun howns hopen hfirst hone v role hv => by
    simp only [Row.size] at hfirst
    obtain ⟨hentry, hnext⟩ := howns.task
    rcases List.mem_cons.mp hv with hv | hv
    · cases hv
      exact run.existsUnique_of_single (hfirst.ne (by omega) (by omega)) hentry
    · exact Row.safe next ⟨p, 0, none⟩ (p + 1) hnext hopen.2 (hfirst.within (by omega) (by omega))
        (fun v hv => hone v (List.mem_cons_of_mem _ hv)) v role hv
  | .fork arms next, q, p => fun howns hopen hfirst hone => by
    have hblock := howns.fork
    simp only [Row.size] at hfirst
    exact hblock.safe (by simp) hfirst hopen.2.1
      (hblock.safe_join (hfirst.ne (by omega) (by omega)) hopen.1.2.1)
      (fun hout => Arms.safe arms p 0 (p + 2) hblock.inside hopen.2.1 (Nat.lt_succ_self _) hout
        fun v hv => hone v (by simp [Row.sites, hv]))
      (fun hout => Row.safe next ⟨p + 1, 0, none⟩ (p + 2 + arms.size) hblock.behind hopen.2.2 hout
        fun v hv => hone v (by simp [Row.sites, hv]))
  | .decision arms next, q, p => fun howns hopen hfirst hone => by
    have hblock := howns.decision
    simp only [Row.size] at hfirst
    exact hblock.safe (by simp) hfirst hopen.2.1
      (hblock.safe_decisionJoin (hfirst.ne (by omega) (by omega)) (hone p (by simp [Row.sites])))
      (fun hout => Arms.safe arms p 0 (p + 2) hblock.inside hopen.2.1 (Nat.lt_succ_self _) hout
        fun v hv => hone v (by simp [Row.sites, hv]))
      (fun hout => Row.safe next ⟨p + 1, 0, none⟩ (p + 2 + arms.size) hblock.behind hopen.2.2 hout
        fun v hv => hone v (by simp [Row.sites, hv]))

theorem Arms.safe : ∀ (arms : Arms) (opening k p : Nat), arms.Owns run.wires opening k p →
    arms.Opened run.isOpen p → opening + 1 < p → run.BeginsOutside p arms.size →
      Row.Exclusive run.isOpen (arms.sites p) →
      ∀ (v : Nat) (role : Role), (v, role) ∈ arms.sites p → run.entered v → run.Safe v role
  | .none, _, _, _ => fun _ _ _ _ _ _ _ hv => by cases hv
  | .arm c row more, opening, k, p => fun howns hopen ho hfirst hone v role hv => by
    simp only [Arms.size] at hfirst
    obtain ⟨hrow, hmore⟩ := howns.arm ho
    rcases List.mem_append.mp hv with hv | hv
    · exact Row.safe row ⟨opening, k, c⟩ p hrow hopen.1 (hfirst.within (by omega) (by omega))
        (fun v hv => hone v (List.mem_append_left _ hv)) v role hv
    · exact Arms.safe more opening (k + 1) (p + row.size) hmore hopen.2 (by omega)
        (hfirst.within (by omega) (by omega))
        (fun v hv => hone v (List.mem_append_right _ hv)) v role hv

end

/-! ## One way out of each decision -/

/-- Every way out of a site is open, except that a decision has at least one open way. -/
structure Serves (isOpen : Nat → Nat → Prop) (sites : List Site) (ws : List Wire) : Prop where
  all : ∀ v role, (v, role) ∈ sites → role ≠ .decision → ∀ i, isOpen v i
  some : ∀ v, (v, .decision) ∈ sites → ∃ e ∈ ws, e.port.source = v ∧ isOpen v e.port.index

theorem Serves.part {isOpen : Nat → Nat → Prop} {sites sites' : List Site} {ws ws' : List Wire}
    (h : Serves isOpen sites ws) (hsites : ∀ v role, (v, role) ∈ sites' → (v, role) ∈ sites)
    (hwires : ∀ v role, (v, role) ∈ sites' → ∀ e ∈ ws, e.port.source = v → e ∈ ws') :
    Serves isOpen sites' ws' := by
  constructor
  · exact fun v role hv => h.all v role (hsites v role hv)
  · intro v hv
    obtain ⟨e, he, hsource, hopen⟩ := h.some v (hsites v _ hv)
    exact ⟨e, hwires v _ hv e he hsource, hsource, hopen⟩

/-- The wires out of the arms of a block, out of the row behind it, and out of the opening. -/
theorem Arms.serves_block {isOpen : Nat → Nat → Prop} {arms : Arms} {next : Row} {q : Port}
    {p t : Nat} {role role' : Role} (hq : q.source < p)
    (h : Serves isOpen ((p, role) :: (p + 1, role') :: (arms.sites (p + 2) ++
      next.sites (p + 2 + arms.size))) (⟨q, p⟩ :: (arms.wires p 0 (p + 2) ++
        next.wiresTo ⟨p + 1, 0, .none⟩ (p + 2 + arms.size) t))) :
    Serves isOpen (arms.sites (p + 2)) (arms.wires p 0 (p + 2)) ∧
      Serves isOpen (next.sites (p + 2 + arms.size))
        (next.wiresTo ⟨p + 1, 0, .none⟩ (p + 2 + arms.size) t) ∧
      Serves isOpen [(p, role)] (arms.wires p 0 (p + 2)) := by
  have hentry : ∀ e : Wire, e = ⟨q, p⟩ → e.port.source = q.source := fun e he => he ▸ rfl
  have hnext : ∀ e ∈ next.wiresTo ⟨p + 1, 0, .none⟩ (p + 2 + arms.size) t,
      e.port.source = p + 1 ∨ p + 2 + arms.size ≤ e.port.source :=
    fun e he => (Row.mem_wiresTo e he).2.imp_right And.left
  refine ⟨h.part (fun v role hv => by simp [hv]) ?_, h.part (fun v role hv => by simp [hv]) ?_,
    h.part (fun v role hv => List.mem_cons.mpr (.inl (List.mem_singleton.mp hv))) ?_⟩
  · intro v role hv e he hsource
    have hlt := arms.mem_sites (p + 2) v role hv
    rcases List.mem_cons.mp he with he | he
    · have := hentry e he
      omega
    · refine (List.mem_append.mp he).resolve_right fun he => ?_
      have := hnext e he
      omega
  · intro v role hv e he hsource
    have hlt := next.mem_sites (p + 2 + arms.size) v role hv
    rcases List.mem_cons.mp he with he | he
    · have := hentry e he
      omega
    · refine (List.mem_append.mp he).resolve_left fun he => ?_
      have := (arms.mem_wires _ _ _ e he).2
      omega
  · intro v role hv e he hsource
    obtain ⟨rfl, rfl⟩ := Prod.mk.inj (List.mem_singleton.mp hv)
    rcases List.mem_cons.mp he with he | he
    · have := hentry e he
      omega
    · refine (List.mem_append.mp he).resolve_right fun he => ?_
      have := hnext e he
      omega

theorem Arms.index_lt {arms : Arms} {opening p : Nat} {e : Wire} (ho : opening < p)
    (he : e ∈ arms.wires opening 0 p) (hsource : e.port.source = opening) :
    e.port.index < arms.conditions.length := by
  have hfrom : e ∈ wiresFrom (arms.wires opening 0 p) opening :=
    List.mem_filter.mpr ⟨he, by simpa using hsource⟩
  have hmem := List.mem_map_of_mem (f := fun e : Wire => e.port.index) hfrom
  rw [(arms.wiresFrom_opening opening 0 p ho).2] at hmem
  have := (List.mem_range'_1.mp hmem).2
  omega

mutual

theorem Row.opened {isOpen : Nat → Nat → Prop} : ∀ (r : Row) (q : Port) (p t : Nat), r.Proper →
    q.source < p → Serves isOpen (r.sites p) (r.wiresTo q p t) → r.Opened isOpen p
  | .done, _, _, _ => fun _ _ _ => trivial
  | .task n next, q, p, t => fun hr hq h => by
    refine ⟨h.all p _ List.mem_cons_self (by simp) 0,
      Row.opened next ⟨p, 0, none⟩ (p + 1) t hr (Nat.lt_succ_self p) (h.part ?_ ?_)⟩
    · exact fun v role hv => List.mem_cons_of_mem _ hv
    · intro v role hv e he hsource
      have hlt := next.mem_sites (p + 1) v role hv
      refine (List.mem_cons.mp he).resolve_left fun he => ?_
      have : e.port.source = q.source := he ▸ rfl
      omega
  | .fork arms next, q, p, t => fun hr hq h => by
    rw [Row.wiresTo_fork] at h
    obtain ⟨harms, hnext, -⟩ := Arms.serves_block hq h
    refine ⟨⟨List.length_pos_of_ne_nil hr.1.1, fun i _ => ?_, ?_⟩,
      Arms.opened arms p 0 (p + 2) hr.2.1 (Nat.lt_succ_self _) harms,
      Row.opened next ⟨p + 1, 0, none⟩ (p + 2 + arms.size) t hr.2.2
        (show p + 1 < p + 2 + arms.size by omega) hnext⟩
    · exact h.all p .fork (by simp [Row.sites]) (by simp) i
    · exact h.all (p + 1) .join (by simp [Row.sites]) (by simp) 0
  | .decision arms next, q, p, t => fun hr hq h => by
    rw [Row.wiresTo_decision] at h
    obtain ⟨harms, hnext, hopening⟩ := Arms.serves_block hq h
    refine ⟨⟨?_, h.all (p + 1) .decisionJoin (by simp [Row.sites]) (by simp) 0⟩,
      Arms.opened arms p 0 (p + 2) hr.2.1 (Nat.lt_succ_self _) harms,
      Row.opened next ⟨p + 1, 0, none⟩ (p + 2 + arms.size) t hr.2.2
        (show p + 1 < p + 2 + arms.size by omega) hnext⟩
    obtain ⟨e, he, hsource, hopen⟩ := hopening.some p List.mem_cons_self
    exact ⟨e.port.index, Arms.index_lt (by omega) he hsource, hopen⟩

theorem Arms.opened {isOpen : Nat → Nat → Prop} : ∀ (arms : Arms) (opening k p : Nat),
    arms.Proper → opening + 1 < p → Serves isOpen (arms.sites p) (arms.wires opening k p) →
      arms.Opened isOpen p
  | .none, _, _, _ => fun _ _ _ => trivial
  | .arm c row more, opening, k, p => fun hr ho h => by
    rw [Arms.wires_arm] at h
    refine ⟨Row.opened row ⟨opening, k, c⟩ p (opening + 1) hr.1 (show opening < p by omega)
        (h.part (fun v role hv => List.mem_append_left _ hv) ?_),
      Arms.opened more opening (k + 1) (p + row.size) hr.2 (by omega)
        (h.part (fun v role hv => List.mem_append_right _ hv) ?_)⟩
    · intro v role hv e he hsource
      have hlt := row.mem_sites p v role hv
      refine (List.mem_append.mp he).resolve_right fun he => ?_
      have := (more.mem_wires _ _ _ e he).2
      omega
    · intro v role hv e he hsource
      have hlt := more.mem_sites (p + row.size) v role hv
      refine (List.mem_append.mp he).resolve_left fun he => ?_
      have hs : e.port.source = opening ∨ p ≤ e.port.source ∧ e.port.source < p + row.size :=
        (Row.mem_wiresTo e he).2
      omega

end

/-! ## Choices -/

theorem Graph.Shows.safe {g : Graph} {r : Row} (h : g.Shows r) {isOpen : VertexId → Nat → Prop}
    (hopen : r.Opened isOpen 2) (hone : Row.Exclusive isOpen (r.sites 2)) {v : Nat} {role : Role}
    (hv : (v, role) ∈ r.allSites) (hstart : role ≠ .start) (he : g.Entered isOpen v) :
    (h.run isOpen).Safe v role := by
  rcases Row.mem_allSites.mp hv with ⟨-, rfl⟩ | ⟨rfl, rfl⟩ | hv | ⟨rfl, -⟩
  · exact absurd rfl hstart
  · exact (h.run isOpen).existsUnique_of_single Nat.one_ne_zero
      (fun e he => Row.mem_allWires_finish he) he
  · exact Row.safe r ⟨0, 0, none⟩ 2 r.owns_allWires hopen (.inl Nat.two_pos) hone v role hv he
  · rcases ((h.run isOpen).entered_iff_live _).mp he with hzero | ⟨e, hmem, ht, -⟩
    · have : 2 + r.size = 0 := hzero
      omega
    · have := Row.mem_allWires hmem
      omega

/-- At a decision, only the chosen way out is open. -/
def Graph.Chosen (g : Graph) (choice : VertexId → Nat) (v : VertexId) (i : Nat) : Prop :=
  ∀ x, g.get? v = some x → x.role = .decision → i = choice v

namespace Graph.Shows

variable {g : Graph} {r : Row} (h : g.Shows r) {choice : VertexId → Nat}
include h

theorem chosen_of_ne {v : Nat} {role : Role} (hv : (v, role) ∈ r.allSites)
    (hne : role ≠ .decision) (i : Nat) : g.Chosen choice v i := by
  intro x hx hrole
  exact absurd (h.role_unique hv ((h.role_iff v _).mp ⟨x, hx, hrole⟩)) hne

theorem chosen_exclusive : Row.Exclusive (g.Chosen choice) (r.sites 2) := by
  intro v hv i j hi hj
  obtain ⟨x, hx, hrole⟩ := (h.role_iff v _).mpr (Row.mem_allSites_of_mem_sites hv)
  rw [hi x hx hrole, hj x hx hrole]

theorem chosen_serves
    (hchoice : ∀ v x, g.get? v = some x → x.role = .decision → choice v < x.arcs.length) :
    Serves (g.Chosen choice) (r.sites 2) r.allWires := by
  constructor
  case all => exact fun v role hv => h.chosen_of_ne (Row.mem_allSites_of_mem_sites hv)
  case some =>
    intro v hv
    obtain ⟨x, hx, hrole⟩ := (h.role_iff v _).mpr (Row.mem_allSites_of_mem_sites hv)
    obtain ⟨a, ha⟩ : ∃ a, x.arcs[choice v]? = some a :=
      ⟨_, List.getElem?_eq_getElem (hchoice v x hx hrole)⟩
    exact ⟨⟨⟨v, choice v, a.condition⟩, a.target⟩, (h.wire_iff _).mp ⟨x, hx, ha⟩, rfl,
      fun _ _ _ => rfl⟩

end Graph.Shows

/-- Whatever each decision of a lowered graph chooses: the end is entered; a join that is entered
is entered through all of its edges, a decision join through exactly one, and so is every other
vertex but the start. -/
theorem Workflow.Built.lowered_safe {w : Workflow} (hb : w.Built) {g : Graph}
    (hg : Graph.ofWorkflow w = .ok g) {choice : VertexId → Nat}
    (hchoice : ∀ v x, g.get? v = some x → x.role = .decision → choice v < x.arcs.length) :
    (∃ v, g.finish = some v ∧ g.Entered (g.Chosen choice) v) ∧
      ∀ v x, g.get? v = some x → g.Entered (g.Chosen choice) v →
        (x.role = .join → ∀ e, g.HasWire e → e.target = v → g.Follows (g.Chosen choice) e) ∧
        (x.role = .decisionJoin → ∃! e, e.target = v ∧ g.Follows (g.Chosen choice) e) ∧
        (x.role ≠ .join → x.role ≠ .decisionJoin → x.role ≠ .start →
          ∃! e, e.target = v ∧ g.Follows (g.Chosen choice) e) := by
  obtain ⟨-, r, ho, hshows⟩ := hb.sound.ofWorkflow_ends.good_of_eq hg
  have hopen := r.opened ⟨0, 0, none⟩ 2 1 (ho.proper hb.sound) Nat.two_pos
    (hshows.chosen_serves hchoice)
  have hstart : g.Chosen choice 0 0 :=
    hshows.chosen_of_ne (Row.mem_allSites.mpr (.inl ⟨rfl, rfl⟩)) (by simp) 0
  have hfollows : ∀ e, g.Follows (g.Chosen choice) e ↔
      e ∈ (hshows.run (g.Chosen choice)).wires ∧ (hshows.run (g.Chosen choice)).Live e.port :=
    fun e => and_congr_left fun _ => hshows.wire_iff e
  refine ⟨⟨1, hshows.finish_eq, hshows.entered_finish hstart hopen⟩, fun v x hx he => ?_⟩
  have hsafe := fun hstart => hshows.safe hopen hshows.chosen_exclusive
    ((hshows.role_iff v _).mp ⟨x, hx, rfl⟩) hstart he
  have hunique : x.role ≠ .join → x.role ≠ .start →
      ∃! e, e.target = v ∧ g.Follows (g.Chosen choice) e := by
    intro hjoin hstart
    simpa only [hfollows, and_left_comm] using (Run.safe_iff_of_ne hjoin).mp (hsafe hstart)
  refine ⟨fun hrole e hwire ht => ?_, fun hrole => ?_, fun hjoin _ hstart => ?_⟩
  · have hlive := hsafe (by simp [hrole])
    rw [hrole] at hlive
    have hmem := (hshows.wire_iff e).mp hwire
    exact (hfollows e).mpr ⟨hmem, hlive e hmem ht⟩
  · exact hunique (by simp [hrole]) (by simp [hrole])
  · exact hunique hjoin hstart

/-- Every decision of the graph has a second branch to choose. -/
theorem nightly_safe :
    (∀ v x, Graph.nightly.get? v = some x → x.role = .decision → 1 < x.arcs.length) ∧
    (∃ v, Graph.nightly.finish = some v ∧
      Graph.nightly.Entered (Graph.nightly.Chosen fun _ => 1) v) ∧
    ∀ v x, Graph.nightly.get? v = some x →
      Graph.nightly.Entered (Graph.nightly.Chosen fun _ => 1) v →
        (x.role = .join → ∀ e, Graph.nightly.HasWire e → e.target = v →
          Graph.nightly.Follows (Graph.nightly.Chosen fun _ => 1) e) ∧
        (x.role = .decisionJoin →
          ∃! e, e.target = v ∧ Graph.nightly.Follows (Graph.nightly.Chosen fun _ => 1) e) ∧
        (x.role ≠ .join → x.role ≠ .decisionJoin → x.role ≠ .start →
          ∃! e, e.target = v ∧ Graph.nightly.Follows (Graph.nightly.Chosen fun _ => 1) e) := by
  have hall : ∀ x ∈ Graph.nightly.vertices, x.role = .decision → 1 < x.arcs.length := by decide
  have hchoice : ∀ v x, Graph.nightly.get? v = some x → x.role = .decision → 1 < x.arcs.length :=
    fun _ x hx => hall x (List.mem_of_getElem? hx)
  exact ⟨hchoice, Workflow.nightly_built.lowered_safe Graph.ofWorkflow_nightly hchoice⟩

end BatchFlow

import BatchFlow.Proofs.Lowering.Wrapping
import BatchFlow.Proofs.Workflow.Built

/-!
# Lowering preserves precedence

What can be reached from a vertex is a run that begins there and has all ways open. In the row that
traces a stretch of a workflow, such a run enters exactly the tasks of the nodes that the node at
the beginning leads to: what comes before is not entered, what lies on other arms is not entered,
and everything behind is.
-/

namespace BatchFlow

/-! ## Runs with all ways open -/

mutual

theorem Row.opened_of_all {isOpen : Nat → Nat → Prop} (h : ∀ v i, isOpen v i) :
    ∀ (r : Row) (p : Nat), r.Proper → r.Opened isOpen p
  | .done, _ => fun _ => trivial
  | .task _ next, p => fun hr => ⟨h p 0, Row.opened_of_all h next (p + 1) hr⟩
  | .fork arms next, p => fun hr =>
    ⟨⟨List.length_pos_of_ne_nil hr.1.1, fun i _ => h p i, h (p + 1) 0⟩,
      Arms.opened_of_all h arms (p + 2) hr.2.1, Row.opened_of_all h next _ hr.2.2⟩
  | .decision arms next, p => fun hr =>
    ⟨⟨⟨0, List.length_pos_of_ne_nil hr.1.1, h p 0⟩, h (p + 1) 0⟩,
      Arms.opened_of_all h arms (p + 2) hr.2.1, Row.opened_of_all h next _ hr.2.2⟩

theorem Arms.opened_of_all {isOpen : Nat → Nat → Prop} (h : ∀ v i, isOpen v i) :
    ∀ (arms : Arms) (p : Nat), arms.Proper → arms.Opened isOpen p
  | .none, _ => fun _ => trivial
  | .arm _ row more, p => fun hr =>
    ⟨Row.opened_of_all h row p hr.1, Arms.opened_of_all h more (p + row.size) hr.2⟩

end

section AllOpen

variable {run : Run} (hall : ∀ v i, run.isOpen v i)
include hall

/-- The opening and the closing of a block are entered together with the block. -/
theorem Arms.InBlock.entered_iff {arms : Arms} {next : Row} {q : Port} {p : Nat}
    (h : arms.InBlock next run.wires q p) (harms : arms.conditions ≠ []) (hr : arms.Proper)
    (hfirst : run.BeginsOutside p (arms.size + next.size + 2)) :
    (run.entered p ↔ run.Live q) ∧ (run.entered (p + 1) ↔ run.Live q) := by
  have hends := Arms.live_ends arms p 0 (p + 2) h.inside (Arms.opened_of_all hall arms _ hr)
    (Nat.lt_succ_self _) (hfirst.within (by omega) (by omega))
  have hclosing := h.live_closing ⟨0, List.length_pos_of_ne_nil harms, hall p 0⟩ (hall (p + 1) 0)
    hfirst hends
  exact ⟨hclosing.1, (and_iff_left (hall (p + 1) 0)).symm.trans hclosing.2⟩

mutual

/-- A row that control does not begin in is entered as a whole or not at all. -/
theorem Row.entered_iff : ∀ (r : Row) (q : Port) (p : Nat), r.Proper → r.Owns run.wires q p →
    run.BeginsOutside p r.size → ∀ (v : Nat) (role : Role), (v, role) ∈ r.sites p →
      (run.entered v ↔ run.Live q)
  | .done, _, _ => fun _ _ _ _ _ hv => by cases hv
  | .task n next, q, p => fun hr howns hfirst v role hv => by
    simp only [Row.size] at hfirst
    obtain ⟨hentry, hnext⟩ := howns.task
    have hp : run.entered p ↔ run.Live q :=
      run.entered_iff_of_single (hfirst.ne (by omega) (by omega)) hentry
    rcases List.mem_cons.mp hv with hv | hv
    · cases hv
      exact hp
    · have hlive : run.Live ⟨p, 0, none⟩ ↔ run.entered p := and_iff_left (hall p 0)
      rw [Row.entered_iff next ⟨p, 0, none⟩ (p + 1) hr hnext
        (hfirst.within (by omega) (by omega)) v role hv, hlive, hp]
  | .fork arms next, q, p
  | .decision arms next, q, p => fun hr howns hfirst v role hv => by
    have hblock : arms.InBlock next run.wires q p := Arms.inBlock howns
    simp only [Row.size] at hfirst
    obtain ⟨hopening, hclosing⟩ := hblock.entered_iff hall hr.1.1 hr.2.1 hfirst
    have hlive : run.Live ⟨p + 1, 0, none⟩ ↔ run.entered (p + 1) := and_iff_left (hall _ 0)
    simp only [Row.sites, List.mem_cons, List.mem_append, Prod.mk.injEq] at hv
    rcases hv with ⟨rfl, rfl⟩ | ⟨rfl, rfl⟩ | hv | hv
    · exact hopening
    · exact hclosing
    · rw [Arms.entered_iff arms p 0 (p + 2) hr.2.1 hblock.inside (Nat.lt_succ_self _)
        (hfirst.within (by omega) (by omega)) v role hv, hopening]
    · rw [Row.entered_iff next ⟨p + 1, 0, none⟩ (p + 2 + arms.size) hr.2.2 hblock.behind
        (hfirst.within (by omega) (by omega)) v role hv, hlive, hclosing]

theorem Arms.entered_iff : ∀ (arms : Arms) (opening k p : Nat), arms.Proper →
    arms.Owns run.wires opening k p → opening + 1 < p → run.BeginsOutside p arms.size →
      ∀ (v : Nat) (role : Role), (v, role) ∈ arms.sites p →
        (run.entered v ↔ run.entered opening)
  | .none, _, _, _ => fun _ _ _ _ _ _ hv => by cases hv
  | .arm c row more, opening, k, p => fun hr howns ho hfirst v role hv => by
    simp only [Arms.size] at hfirst
    obtain ⟨hrow, hmore⟩ := howns.arm ho
    rcases List.mem_append.mp hv with hv | hv
    · have hlive : run.Live ⟨opening, k, c⟩ ↔ run.entered opening := and_iff_left (hall _ k)
      rw [Row.entered_iff row ⟨opening, k, c⟩ p hr.1 hrow (hfirst.within (by omega) (by omega))
        v role hv, hlive]
    · exact Arms.entered_iff more opening (k + 1) (p + row.size) hr.2 hmore (by omega)
        (hfirst.within (by omega) (by omega)) v role hv

end

end AllOpen

/-! ## Runs that begin at a task -/

/-- Among the tasks at these sites, those of the nodes that a node leads to are entered. -/
def Run.Reaches (run : Run) (w : Workflow) (u : NodeId) (sites : List Site) : Prop :=
  ∀ v t, (v, Role.task t) ∈ sites → (run.entered v ↔ Leads w.Flow (.node u) (.node t.source))

namespace Workflow.Sound

variable {w : Workflow} (hw : w.Sound)
include hw

theorem leads_merge {a : Place} (ha : a.rank ≤ w.size) {c x : Nat} (hc : c ∈ w.next a)
    (hx : w.On (.node c) (w.mergeOf a) x) : Leads w.Flow (.node x) (.node (w.mergeOf a)) := by
  rcases (hw.stops_mergeOf ha hc).ahead_or_behind hx.1 with h | h
  · exact absurd h hx.2
  · have hle : (Place.node x).rank ≤ w.size + 1 := by
      by_cases hne : Place.node c = .node x
      · rw [← hne]
        exact Nat.le_succ_of_le (hw.of_mem_next hc).2
      · exact hw.rank_le_of_leads hx.1 hne
    exact h.leads_left (hw.leads_sink hle)

end Workflow.Sound

section Reaches

variable {w : Workflow} {run : Run} {q : Port} {p : Nat} {t₀ : Task}

theorem Run.Reaches.append {u : NodeId} {sites sites' : List Site} (h : run.Reaches w u sites)
    (h' : run.Reaches w u sites') : run.Reaches w u (sites ++ sites') :=
  fun v t hv => (List.mem_append.mp hv).elim (h v t) (h' v t)

theorem Row.reaches_single (hall : ∀ v i, run.isOpen v i) {n : Node}
    (hfirst : (run.first, .task t₀) ∈ (Row.task n .done).sites p) :
    run.Reaches w t₀.source ((Row.task n .done).sites p) ∧
      run.Live ((Row.task n .done).exit q p) := by
  obtain ⟨hp, hrole⟩ := Prod.mk.inj (List.mem_singleton.mp hfirst)
  have hbegun : run.entered p := (run.entered_iff p).mpr (.inl hp.symm)
  refine ⟨fun v t hv => ?_, hbegun, hall p 0⟩
  obtain ⟨rfl, hrole'⟩ := Prod.mk.inj (List.mem_singleton.mp hv)
  rw [Role.task.inj hrole, Role.task.inj hrole']
  exact iff_of_true hbegun .refl

/-- Rows one after the other, where every node of the first leads to every node of the second. -/
theorem Row.reaches_append (hall : ∀ v i, run.isOpen v i) {r s : Row} (hr : r.Proper)
    (hs : s.Proper) (howns : (r.append s).Owns run.wires q p) (hclosed : ¬ run.Live q)
    (hord : ∀ x ∈ r.ids, ∀ y ∈ s.ids, Leads w.Flow (.node x) (.node y) ∧
      ¬ Leads w.Flow (.node y) (.node x))
    (ihr : r.Owns run.wires q p → (run.first, .task t₀) ∈ r.sites p →
      run.Reaches w t₀.source (r.sites p) ∧ run.Live (r.exit q p))
    (ihs : s.Owns run.wires (r.exit q p) (p + r.size) → ¬ run.Live (r.exit q p) →
      (run.first, .task t₀) ∈ s.sites (p + r.size) →
        run.Reaches w t₀.source (s.sites (p + r.size)) ∧
          run.Live (s.exit (r.exit q p) (p + r.size)))
    (hfirst : (run.first, .task t₀) ∈ (r.append s).sites p) :
    run.Reaches w t₀.source ((r.append s).sites p) ∧ run.Live ((r.append s).exit q p) := by
  obtain ⟨hown, hown'⟩ := howns.append
  have hopen := Row.opened_of_all hall r p hr
  have hopen' := Row.opened_of_all hall s (p + r.size) hs
  rw [Row.sites_append] at hfirst ⊢
  rw [Row.exit_append]
  rcases List.mem_append.mp hfirst with hfirst | hfirst
  · obtain ⟨hreach, hlive⟩ := ihr hown hfirst
    have hout : run.BeginsOutside (p + r.size) s.size := .inl (r.mem_sites p _ _ hfirst).2
    refine ⟨hreach.append fun v t hv => ?_, (Row.live_exit s _ _ hown' hopen' hout).mpr hlive⟩
    have hentered := (Row.entered_iff hall s _ _ hs hown' hout v _ hv).mpr hlive
    exact iff_of_true hentered
      (hord _ (Row.source_mem_ids hfirst) _ (Row.source_mem_ids hv)).1
  · have hout : run.BeginsOutside p r.size := .inr (s.mem_sites _ _ _ hfirst).1
    have hclosed' : ¬ run.Live (r.exit q p) :=
      mt (Row.live_exit r q p hown hopen hout).mp hclosed
    obtain ⟨hreach, hlive⟩ := ihs hown' hclosed' hfirst
    refine ⟨Run.Reaches.append (fun v t hv => ?_) hreach, hlive⟩
    have hentered := mt (Row.entered_iff hall r q p hr hown hout v _ hv).mp hclosed
    exact iff_of_false hentered
      (hord _ (Row.source_mem_ids hv) _ (Row.source_mem_ids hfirst)).2

/-- Arms side by side, where no node of one leads to a node of the other. -/
theorem Arms.reaches_arm (hall : ∀ v i, run.isOpen v i) {c : Option Condition} {row : Row}
    {more : Arms} {opening k : Nat} (hr : row.Proper) (hm : more.Proper)
    (howns : (Arms.arm c row more).Owns run.wires opening k p) (ho : opening + 1 < p)
    (hclosed : ¬ run.entered opening)
    (hapart : ∀ x ∈ row.ids, ∀ y ∈ more.ids, ¬ Leads w.Flow (.node x) (.node y) ∧
      ¬ Leads w.Flow (.node y) (.node x))
    (ihr : row.Owns run.wires ⟨opening, k, c⟩ p → (run.first, .task t₀) ∈ row.sites p →
      run.Reaches w t₀.source (row.sites p) ∧ run.Live (row.exit ⟨opening, k, c⟩ p))
    (ihm : more.Owns run.wires opening (k + 1) (p + row.size) →
      (run.first, .task t₀) ∈ more.sites (p + row.size) →
        run.Reaches w t₀.source (more.sites (p + row.size)) ∧
          ∃ e ∈ more.ends opening (k + 1) (p + row.size), run.Live e.port)
    (hfirst : (run.first, .task t₀) ∈ (Arms.arm c row more).sites p) :
    run.Reaches w t₀.source ((Arms.arm c row more).sites p) ∧
      ∃ e ∈ (Arms.arm c row more).ends opening k p, run.Live e.port := by
  obtain ⟨hown, hown'⟩ := howns.arm ho
  rcases List.mem_append.mp hfirst with hfirst | hfirst
  · obtain ⟨hreach, hlive⟩ := ihr hown hfirst
    have hout : run.BeginsOutside (p + row.size) more.size := .inl (row.mem_sites p _ _ hfirst).2
    refine ⟨hreach.append fun v t hv => ?_, _, List.mem_cons_self, hlive⟩
    have hentered := mt (Arms.entered_iff hall more opening (k + 1) _ hm hown' (by omega) hout
      v _ hv).mp hclosed
    exact iff_of_false hentered
      (hapart _ (Row.source_mem_ids hfirst) _ (Arms.source_mem_ids hv)).1
  · obtain ⟨hreach, e, he, hlive⟩ := ihm hown' hfirst
    have hout : run.BeginsOutside p row.size := .inr (more.mem_sites _ _ _ hfirst).1
    refine ⟨Run.Reaches.append (fun v t hv => ?_) hreach, e, List.mem_cons_of_mem _ he, hlive⟩
    have hentered : ¬ run.entered v := fun hv' =>
      hclosed ((Row.entered_iff hall row ⟨opening, k, c⟩ p hr hown hout v _ hv).mp hv').1
    exact iff_of_false hentered
      (hapart _ (Row.source_mem_ids hv) _ (Arms.source_mem_ids hfirst)).2

/-- A block that the run begins in is left through its closing. -/
theorem Arms.reaches_block {arms : Arms} {next : Row} {role role' : Role}
    (hall : ∀ v i, run.isOpen v i) (hblock : arms.InBlock next run.wires q p)
    (hrole : ∀ t, role ≠ .task t) (hrole' : ∀ t, role' ≠ .task t)
    (h : run.Reaches w t₀.source (arms.sites (p + 2)) ∧
      ∃ e ∈ arms.ends p 0 (p + 2), run.Live e.port) :
    run.Reaches w t₀.source ((p, role) :: (p + 1, role') :: (arms.sites (p + 2) ++ [])) ∧
      run.Live ⟨p + 1, 0, .none⟩ := by
  obtain ⟨hreach, e, he, hlive⟩ := h
  have ht := Arms.target_of_mem_ends he
  refine ⟨fun v t hv => ?_, (run.entered_iff_live _).mpr
    (.inr ⟨e, (hblock.closing e ht).mpr he, ht, hlive⟩), hall (p + 1) 0⟩
  rw [List.append_nil, List.mem_cons, List.mem_cons] at hv
  rcases hv with hv | hv | hv
  · exact absurd (Prod.mk.inj hv).2.symm (hrole t)
  · exact absurd (Prod.mk.inj hv).2.symm (hrole' t)
  · exact hreach v t hv

/-! ## The order of the nodes in a row -/

/-- A node leads to all that lies on its stretch, and nothing leads back. -/
theorem Row.Traces.head_before (hw : w.Sound) {id stop : Nat} {n : Node} {rest : Row}
    (ht : Row.Traces w id stop (.task n rest)) (hi : id ≤ w.size) (hs : w.Stops stop (.node id))
    (hn : n.id = id) (hnodup : (Row.task n rest).ids.Nodup) :
    ∀ x ∈ (Row.task n .done).ids, ∀ y ∈ rest.ids, Leads w.Flow (.node x) (.node y) ∧
      ¬ Leads w.Flow (.node y) (.node x) := by
  intro x hx y hy
  rw [List.mem_singleton.mp hx]
  rw [Row.ids_task, List.nodup_cons] at hnodup
  have hahead := ((ht.mem_ids hw hi hs y).mp (List.mem_cons_of_mem _ hy)).1
  rw [← hn] at hahead
  refine ⟨hahead, fun hback => hnodup.1 ?_⟩
  rw [Place.node.inj (hw.ranked.antisymm hahead hback)]
  exact hy

/-- What lies on branches leads to what lies behind the merge point, and nothing leads back. -/
theorem Row.Bridges.before (hw : w.Sound) {a : Place} {stop : Nat} {inner next : Row}
    (hb : Row.Bridges w a inner) (ht : Row.Traces w (w.mergeOf a) stop next) (ha : a.rank ≤ w.size)
    (hs : w.Stops stop (.node (w.mergeOf a))) : ∀ x ∈ inner.ids, ∀ y ∈ next.ids,
      Leads w.Flow (.node x) (.node y) ∧ ¬ Leads w.Flow (.node y) (.node x) := by
  intro x hx y hy
  obtain ⟨c, hc, hon⟩ := (hb.mem_ids hw ha x).mp hx
  have hon' := (ht.mem_ids hw (hw.mergeOf_le ha) hs y).mp hy
  exact ⟨(hw.leads_merge ha hc hon).trans hon'.1, fun hback => hon.2 (hon'.1.trans hback)⟩

theorem Arms.Traces.apart (hw : w.Sound) {merge head : Nat} {c : Option Condition} {row : Row}
    {heads : List (NodeId × Option Condition)} {more : Arms} (ht : Row.Traces w head merge row)
    (hmore : Arms.Traces w merge heads more)
    (hstops : ∀ h ∈ (head, c) :: heads, h.1 ≤ w.size ∧ w.Stops merge (.node h.1))
    (hnodup : (row.ids ++ more.ids).Nodup) : ∀ x ∈ row.ids, ∀ y ∈ more.ids,
      ¬ Leads w.Flow (.node x) (.node y) ∧ ¬ Leads w.Flow (.node y) (.node x) := by
  intro x hx y hy
  obtain ⟨hle, hs⟩ := hstops _ List.mem_cons_self
  have hrow : ∀ x : Nat, x ∈ row.ids ↔ _ := ht.mem_ids hw hle hs
  have harms : ∀ x : Nat, x ∈ more.ids ↔ _ :=
    hmore.mem_ids hw fun h hh => hstops h (List.mem_cons_of_mem _ hh)
  have hdisj := (List.nodup_append.mp hnodup).2.2
  have hon := (hrow x).mp hx
  obtain ⟨h, hh, hon'⟩ := (harms y).mp hy
  constructor
  · intro hxy
    exact hdisj y ((hrow y).mpr ⟨hon.1.trans hxy, hon'.2⟩) y hy rfl
  · intro hyx
    exact hdisj x hx x ((harms x).mpr ⟨h, hh, hon'.1.trans hyx, hon.2⟩) rfl

mutual

/-- A run that begins at a task of a row enters, in this row, what the task's node leads to. -/
theorem Row.Traces.reaches (hw : w.Sound) (hall : ∀ v i, run.isOpen v i) {id stop : Nat} {r : Row}
    {q : Port} {p : Nat} : Row.Traces w id stop r → id ≤ w.size → w.Stops stop (.node id) →
      r.ids.Nodup → r.Owns run.wires q p → ¬ run.Live q → (run.first, .task t₀) ∈ r.sites p →
        run.Reaches w t₀.source (r.sites p) ∧ run.Live (r.exit q p)
  | .done _ => fun _ _ _ _ _ hfirst => by cases hfirst
  | @Row.Traces.task _ id stop n inner next hne hn hb ht =>
    fun hi hs hnodup howns hclosed hfirst => by
    have ha : (Place.node id).rank ≤ w.size := Workflow.rank_le hn
    have hs' := hw.stops_of_mergeOf ha hs fun h => hne (Place.node.inj h)
    have hhead := (Row.Traces.task hne hn hb ht).head_before hw hi hs (hw.dag.id_eq id n hn) hnodup
    have hproper := hb.proper hw
    have hproper' := ht.proper hw
    rw [Row.ids_task, Row.ids_append, List.nodup_cons, List.nodup_append] at hnodup
    -- The task counts as a row of its own, so both seams are of one sort.
    refine Row.reaches_append (r := .task n .done) hall trivial
      (Row.proper_append inner hproper hproper') howns hclosed hhead
      (fun _ hfirst => Row.reaches_single hall hfirst) (fun howns hclosed hfirst => ?_) hfirst
    exact Row.reaches_append hall hproper hproper' howns hclosed (hb.before hw ht ha hs')
      (fun howns hfirst => Row.Bridges.reaches hw hall hb ha hnodup.2.1 howns hclosed hfirst)
      (fun howns hclosed hfirst => Row.Traces.reaches hw hall ht (hw.mergeOf_le ha) hs'
        hnodup.2.2.1 howns hclosed hfirst) hfirst

theorem Row.Bridges.reaches (hw : w.Sound) (hall : ∀ v i, run.isOpen v i) {a : Place} {r : Row}
    {q : Port} {p : Nat} : Row.Bridges w a r → a.rank ≤ w.size → r.ids.Nodup →
      r.Owns run.wires q p → ¬ run.Live q → (run.first, .task t₀) ∈ r.sites p →
        run.Reaches w t₀.source (r.sites p) ∧ run.Live (r.exit q p)
  | .skip _ _ => fun _ _ _ _ hfirst => by cases hfirst
  | .single _ hb ht => fun ha hnodup howns hclosed hfirst => by
    obtain ⟨hle, hs⟩ := hw.branches_stop ha _ (hb ▸ List.mem_singleton_self _)
    exact Row.Traces.reaches hw hall ht hle hs hnodup howns hclosed hfirst
  | @Row.Bridges.fork _ a arms _ _ ht
  | @Row.Bridges.decision _ a arms _ ht => fun ha hnodup howns hclosed hfirst => by
    simp only [Row.ids_fork, Row.ids_decision, Row.ids_done, List.append_nil] at hnodup
    have hblock : arms.InBlock .done run.wires q p := Arms.inBlock howns
    simp only [Row.sites, List.mem_cons, List.mem_append, Prod.mk.injEq, reduceCtorEq, and_false,
      false_or, List.not_mem_nil, or_false] at hfirst
    have hlt := arms.mem_sites _ _ _ hfirst
    have hclosed' : ¬ run.entered p :=
      mt (run.entered_iff_of_single (by omega) hblock.opening).mp hclosed
    exact Arms.reaches_block hall hblock (by simp) (by simp) (Arms.Traces.reaches hw hall ht
      (hw.branches_stop ha) hnodup hblock.inside (Nat.lt_succ_self _) hclosed' hfirst)

theorem Arms.Traces.reaches (hw : w.Sound) (hall : ∀ v i, run.isOpen v i) {merge : Nat}
    {heads : List (NodeId × Option Condition)} {arms : Arms} {opening k p : Nat} :
    Arms.Traces w merge heads arms →
      (∀ h ∈ heads, h.1 ≤ w.size ∧ w.Stops merge (.node h.1)) → arms.ids.Nodup →
      arms.Owns run.wires opening k p → opening + 1 < p → ¬ run.entered opening →
      (run.first, .task t₀) ∈ arms.sites p →
        run.Reaches w t₀.source (arms.sites p) ∧
          ∃ e ∈ arms.ends opening k p, run.Live e.port
  | .none _ => fun _ _ _ _ _ hfirst => by cases hfirst
  | .arm ht hmore => fun hstops hnodup howns ho hclosed hfirst => by
    obtain ⟨hle, hs⟩ := hstops _ List.mem_cons_self
    rw [Arms.ids_arm] at hnodup
    have hapart := Arms.Traces.apart hw ht hmore hstops hnodup
    rw [List.nodup_append] at hnodup
    exact Arms.reaches_arm hall (ht.proper hw) (hmore.proper hw) howns ho hclosed hapart
      (fun howns hfirst => Row.Traces.reaches hw hall ht hle hs hnodup.1 howns
        (fun hlive => hclosed hlive.1) hfirst)
      (fun howns hfirst => Arms.Traces.reaches hw hall hmore
        (fun h hh => hstops h (List.mem_cons_of_mem _ hh)) hnodup.2.1 howns (by omega) hclosed
        hfirst) hfirst

end

theorem Row.Outlines.reaches (hw : w.Sound) (hall : ∀ v i, run.isOpen v i) {r : Row}
    (ho : Row.Outlines w r) (howns : r.Owns run.wires q p) (hclosed : ¬ run.Live q)
    (hfirst : (run.first, .task t₀) ∈ r.sites p) : run.Reaches w t₀.source (r.sites p) := by
  cases ho with
  | @mk opening rest hb ht hnodup =>
    have ha : Place.source.rank ≤ w.size := Nat.zero_le _
    have hs := hw.stops_of_mergeOf ha (through_last : w.Stops w.size .source) (by simp)
    rw [Row.ids_append, List.nodup_append] at hnodup
    exact (Row.reaches_append hall (hb.proper hw) (ht.proper hw) howns hclosed
      (hb.before hw ht ha hs)
      (fun howns hfirst => hb.reaches hw hall ha hnodup.1 howns hclosed hfirst)
      (fun howns hclosed hfirst => ht.reaches hw hall (hw.mergeOf_le ha) hs hnodup.2.1 howns
        hclosed hfirst) hfirst).1

end Reaches

/-! ## Child edges -/

/-- One node is a child of another, under a condition or not. -/
def Workflow.Child (w : Workflow) (u v : NodeId) : Prop :=
  ∃ n, w.node? u = some n ∧ v ∈ n.children

theorem Workflow.child_iff {w : Workflow} {u v : NodeId} : w.Child u v ↔ v ∈ w.next (.node u) := by
  simp only [Child, next, childrenOf]
  cases w.node? u <;> simp

theorem Workflow.Sound.leads_iff {w : Workflow} (hw : w.Sound) {u v : Nat} (hv : v < w.size) :
    Leads w.Flow (.node u) (.node v) ↔ Leads w.Child u v := by
  constructor
  · intro h
    generalize ha : Place.node u = a at h
    induction h using Relation.ReflTransGen.head_induction_on generalizing u with
    | refl =>
      rw [Place.node.inj ha]
    | head e hrest ih =>
      subst ha
      cases e with
      | edge hc => exact .head (child_iff.mpr hc) (ih rfl)
      | leaf _ _ =>
        have hle : w.size + 1 ≤ v + 1 := hw.ranked.le hrest
        omega
  · intro h
    induction h with
    | refl => exact .refl
    | tail _ hchild ih =>
      have hnext := child_iff.mp hchild
      exact (ih (Nat.lt_trans (hw.lt_of_mem_childrenOf hnext).1 hv)).tail (.edge hnext)

namespace Graph.Shows

variable {g : Graph} {r : Row} (h : g.Shows r)
include h

/-- The run from a vertex along all edges. -/
def reach (a : Nat) : Run where
  wires := r.allWires
  isOpen _ _ := True
  first := a
  entered := Leads g.Child a
  entered_iff v := by
    rw [Leads, Relation.ReflTransGen.cases_tail_iff]
    refine or_congr Iff.rfl ⟨?_, ?_⟩
    · rintro ⟨b, hb, hchild⟩
      obtain ⟨e, he, ht, rfl⟩ := h.child_iff.mp hchild
      exact ⟨e, he, ht, hb, trivial⟩
    · rintro ⟨e, he, ht, hb, -⟩
      exact ⟨e.port.source, hb, h.child_iff.mpr ⟨e, he, ht, rfl⟩⟩

end Graph.Shows

/-- One node of a workflow can be reached from another along child edges exactly if the vertex that
wraps the one can be reached from the vertex that wraps the other along the edges of the lowered
graph. -/
theorem Workflow.Built.lowered_precedence {w : Workflow} (hb : w.Built) {g : Graph}
    (hg : Graph.ofWorkflow w = .ok g) {u v : NodeId} (hu : u < w.size) (hv : v < w.size) :
    ∃ a b, (∀ x, g.Wraps x u ↔ x = a) ∧ (∀ x, g.Wraps x v ↔ x = b) ∧
      (Relation.ReflTransGen w.Child u v ↔ Relation.ReflTransGen g.Child a b) := by
  have hw := hb.sound
  obtain ⟨-, r, ho, hshows⟩ := hw.ofWorkflow_ends.good_of_eq hg
  obtain ⟨a, ha⟩ := hshows.exists_wraps hw ho hu
  obtain ⟨b, hb'⟩ := hshows.exists_wraps hw ho hv
  refine ⟨a, b, ha, hb', ?_⟩
  obtain ⟨t, hat, rfl⟩ := hshows.wraps_iff.mp ((ha a).mpr rfl)
  obtain ⟨t', hbt, rfl⟩ := hshows.wraps_iff.mp ((hb' b).mpr rfl)
  have hclosed : ¬ (hshows.reach a).Live ⟨0, 0, none⟩ := by
    rintro ⟨hentered, -⟩
    rcases ((hshows.reach a).entered_iff 0).mp hentered with hzero | ⟨e, he, ht, -⟩
    · have hlt := (r.mem_sites 2 a _ hat).1
      have : (0 : Nat) = a := hzero
      omega
    · have := Row.mem_allWires he
      omega
  have howns : r.Owns (hshows.reach a).wires ⟨0, 0, none⟩ 2 := r.owns_allWires
  have hall : ∀ v i, (hshows.reach a).isOpen v i := fun _ _ => trivial
  have hreaches := ho.reaches hw hall howns hclosed hat
  exact ((hreaches b t' hbt).trans (hw.leads_iff hv)).symm

/-- The first node of the workflow leads to the last one, and so do their vertices. -/
theorem nightly_precedence : 0 < Workflow.nightly.size ∧ 5 < Workflow.nightly.size ∧
    ∃ a b, (∀ x, Graph.nightly.Wraps x 0 ↔ x = a) ∧ (∀ x, Graph.nightly.Wraps x 5 ↔ x = b) ∧
      (Relation.ReflTransGen Workflow.nightly.Child 0 5 ↔
        Relation.ReflTransGen Graph.nightly.Child a b) := by
  have hfirst : 0 < Workflow.nightly.size := by decide
  have hlast : 5 < Workflow.nightly.size := by decide
  exact ⟨hfirst, hlast, Workflow.nightly_built.lowered_precedence Graph.ofWorkflow_nightly hfirst
    hlast⟩

end BatchFlow

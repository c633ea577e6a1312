import BatchFlow.Proofs.Lowering.Wrapping
import BatchFlow.Proofs.Workflow.Active
import BatchFlow.Proofs.Workflow.Built

/-!
# Lowering preserves what runs

Under a resolution, control takes the branch of the picked child at the decision behind each node.
A row that traces a stretch is then never stuck, a task in it is entered only if its node is active,
and where a task is entered, so are the tasks of all nodes that one goes on to. A node that one goes
on to either begins a branch or is the merge point, which is entered from the end of any branch.
-/

namespace BatchFlow

/-- The port leaves the vertex of a place. -/
def Port.Leaves (sites : List Site) (q : Port) : Place → Prop
  | .source => True
  | .node id => ∃ t, (q.source, Role.task t) ∈ sites ∧ t.source = id

namespace Run

/-- All ways are open, except that behind the task of a node with conditional children the decision
has those of the picked child open. -/
structure Resolves (run : Run) (w : Workflow) (pick : NodeId → NodeId) (sites : List Site) :
    Prop where
  all : ∀ v role, (v, role) ∈ sites → role ≠ .decision → ∀ i, run.isOpen v i
  picked : ∀ v, (v, .decision) ∈ sites → ∀ i, (run.isOpen v i ↔ ∃ e ∈ run.wires, e.target = v ∧
    ∃ t b, (e.port.source, .task t) ∈ sites ∧ (w.choices (.node t.source))[i]? = some b ∧
      b.node = pick t.source)
  unique : ∀ v t t', (v, .task t) ∈ sites → (v, .task t') ∈ sites → t = t'

/-- The task of a node is entered. -/
def Runs (run : Run) (sites : List Site) (u : NodeId) : Prop :=
  ∃ v t, (v, Role.task t) ∈ sites ∧ t.source = u ∧ run.entered v

/-- Of the tasks at some sites, those that are entered belong to active nodes, and all that one goes
on to from there is entered. -/
def Agrees (run : Run) (w : Workflow) (pick : NodeId → NodeId) (sites part : List Site) : Prop :=
  ∀ v t, (v, Role.task t) ∈ part → run.entered v →
    w.Active pick t.source ∧ ∀ u, w.Onward pick (.node t.source) u → run.Runs sites u

theorem Agrees.append {run : Run} {w : Workflow} {pick : NodeId → NodeId}
    {sites part part' : List Site} (h : run.Agrees w pick sites part)
    (h' : run.Agrees w pick sites part') : run.Agrees w pick sites (part ++ part') :=
  fun v t hv => (List.mem_append.mp hv).elim (h v t) (h' v t)

end Run

variable {w : Workflow} {pick : NodeId → NodeId} {run : Run} {sites : List Site}

/-! ## The ways out of an opening -/

namespace Run.Resolves

variable (h : run.Resolves w pick sites) {a : Place} {i p : Nat} {q : Port}
  {head : NodeId × Option Condition}
include h

/-- All arms of a fork are open, and one goes on to all of its branches. -/
theorem fork_iff (hv : (p, .fork) ∈ sites) (hplain : w.choices a = [])
    (hi : (w.branches a)[i]? = some head) : run.isOpen p i ↔ w.Onward pick a head.1 := by
  have hmem := Workflow.mem_next_of_mem_branches (List.mem_of_getElem? hi)
  rw [Workflow.next_eq, hplain, List.map_nil, List.append_nil] at hmem
  exact iff_of_true (h.all p .fork hv (by simp) i) (.plain hmem)

/-- The arm of a decision is open exactly if one goes on to its branch. -/
theorem decision_iff (hw : w.Sound) (hv : (p, .decision) ∈ sites) (hq : q.Leaves sites a)
    (hchoices : w.choices a ≠ []) (hentry : ∀ e : Wire, e.target = p → (e ∈ run.wires ↔ e = ⟨q, p⟩))
    (hi : (w.branches a)[i]? = some head) : run.isOpen p i ↔ w.Onward pick a head.1 := by
  cases a with
  | source => exact absurd rfl hchoices
  | node id =>
    obtain ⟨t, ht, rfl⟩ := hq
    have hplain := hw.plain_eq_nil_of_choices hchoices
    rw [Workflow.branches, if_neg hchoices, List.getElem?_map, Option.map_eq_some_iff] at hi
    obtain ⟨b, hb, rfl⟩ := hi
    rw [h.picked p hv i]
    constructor
    · rintro ⟨e, he, htarget, t', b', ht', hb', hpick⟩
      rw [(hentry e htarget).mp he] at ht'
      rw [h.unique _ t' t ht' ht] at hb' hpick
      rw [Option.some.inj (hb.symm.trans hb'), hpick]
      exact .picked hchoices
    · intro honward
      refine ⟨⟨q, p⟩, (hentry _ rfl).mpr rfl, rfl, t, b, ht, hb, ?_⟩
      generalize hu : b.node = u at honward
      cases honward with
      | plain hmem =>
        rw [hplain] at hmem
        cases hmem
      | picked _ => rfl

end Run.Resolves

/-! ## A resolved row is never stuck -/

mutual

theorem Row.Traces.opened (hw : w.Sound) (hp : w.Picks pick) (h : run.Resolves w pick sites)
    {id stop : NodeId} {r : Row} {q : Port} {p : Nat} :
    Row.Traces w id stop r → r.Owns run.wires q p → (∀ s ∈ r.sites p, s ∈ sites) →
      r.Opened run.isOpen p
  | .done _ => fun _ _ => trivial
  | @Row.Traces.task _ id stop n inner next hne hn hb ht => fun howns hsites => by
    have hself : (p, Role.task n.task) ∈ sites := hsites _ List.mem_cons_self
    have hrest : ∀ s ∈ inner.sites (p + 1) ++ next.sites (p + 1 + inner.size), s ∈ sites := by
      rw [← Row.sites_append]
      exact fun s hs => hsites s (List.mem_cons_of_mem _ hs)
    obtain ⟨hinner, hnext⟩ := howns.task.2.append
    refine ⟨h.all p _ hself (by simp) 0, (Row.opened_append inner next (p + 1)).mpr ⟨?_, ?_⟩⟩
    · exact Row.Bridges.opened hw hp h hb hinner (fun s hs => hrest s (List.mem_append_left _ hs))
        ⟨n.task, hself, hw.dag.id_eq id n hn⟩
    · exact Row.Traces.opened hw hp h ht hnext fun s hs => hrest s (List.mem_append_right _ hs)

theorem Row.Bridges.opened (hw : w.Sound) (hp : w.Picks pick) (h : run.Resolves w pick sites)
    {a : Place} {r : Row} {q : Port} {p : Nat} :
    Row.Bridges w a r → r.Owns run.wires q p → (∀ s ∈ r.sites p, s ∈ sites) →
      q.Leaves sites a → r.Opened run.isOpen p
  | .skip _ _ => fun _ _ _ => trivial
  | .single _ _ ht => fun howns hsites _ => Row.Traces.opened hw hp h ht howns hsites
  | @Row.Bridges.fork _ a arms hplain htwo ht => fun howns hsites _ => by
    have hlen : arms.conditions.length = (w.branches a).length := by
      rw [ht.conditions_eq, List.length_map]
    have hinside : ∀ s ∈ arms.sites (p + 2), s ∈ sites :=
      fun s hs => hsites s (by simp [Row.sites, hs])
    refine ⟨⟨by omega, fun i _ => ?_, ?_⟩,
      Arms.Traces.opened hw hp h ht howns.fork.inside (Nat.lt_succ_self _) hinside, trivial⟩
    · exact h.all p .fork (hsites _ (by simp [Row.sites])) (by simp) i
    · exact h.all (p + 1) .join (hsites _ (by simp [Row.sites])) (by simp) 0
  | @Row.Bridges.decision _ a arms hdefault ht => fun howns hsites hq => by
    obtain ⟨default, hdefault, -⟩ := hdefault
    have hchoices : w.choices a ≠ [] := List.ne_nil_of_mem hdefault
    have hinside : ∀ s ∈ arms.sites (p + 2), s ∈ sites :=
      fun s hs => hsites s (by simp [Row.sites, hs])
    refine ⟨⟨?_, h.all (p + 1) .decisionJoin (hsites _ (by simp [Row.sites])) (by simp) 0⟩,
      Arms.Traces.opened hw hp h ht howns.decision.inside (Nat.lt_succ_self _) hinside, trivial⟩
    obtain ⟨i, head, hi, honward⟩ := hp.exists_index hchoices
    refine ⟨i, ?_, (h.decision_iff hw (hsites _ (by simp [Row.sites])) hq hchoices
      howns.decision.opening hi).mpr honward⟩
    rw [ht.conditions_eq, List.length_map]
    exact (List.getElem?_eq_some_iff.mp hi).1

theorem Arms.Traces.opened (hw : w.Sound) (hp : w.Picks pick) (h : run.Resolves w pick sites)
    {merge : NodeId} {heads : List (NodeId × Option Condition)} {arms : Arms}
    {opening k p : Nat} : Arms.Traces w merge heads arms →
      arms.Owns run.wires opening k p → opening + 1 < p → (∀ s ∈ arms.sites p, s ∈ sites) →
        arms.Opened run.isOpen p
  | .none _ => fun _ _ _ => trivial
  | .arm ht hmore => fun howns ho hsites => by
    obtain ⟨hrow, hrest⟩ := howns.arm ho
    constructor
    · exact Row.Traces.opened hw hp h ht hrow fun s hs => hsites s (List.mem_append_left _ hs)
    · exact Arms.Traces.opened hw hp h hmore hrest (by omega)
        fun s hs => hsites s (List.mem_append_right _ hs)

end

/-! ## Where one goes on to -/

theorem Row.Traces.runs (hw : w.Sound) {id stop : NodeId} {r : Row} {q : Port} {p : Nat}
    (ht : Row.Traces w id stop r) (hne : id ≠ stop) (howns : r.Owns run.wires q p)
    (hsites : ∀ s ∈ r.sites p, s ∈ sites) (hfirst : run.first < p) (hlive : run.Live q) :
    run.Runs sites id := by
  cases ht with
  | done => exact absurd rfl hne
  | @task _ _ n _ _ _ hn _ _ =>
    have hentered := (run.entered_iff_of_single (Nat.ne_of_gt hfirst) howns.task.1).mpr hlive
    exact ⟨p, n.task, hsites _ List.mem_cons_self, hw.dag.id_eq id n hn, hentered⟩

theorem Arms.Traces.runs (hw : w.Sound) {merge : NodeId}
    {heads : List (NodeId × Option Condition)} {arms : Arms} {opening k p : Nat} :
    Arms.Traces w merge heads arms → arms.Owns run.wires opening k p → opening + 1 < p →
      (∀ s ∈ arms.sites p, s ∈ sites) → run.first < p →
      ∀ (i : Nat) (head : NodeId × Option Condition), heads[i]? = some head → head.1 ≠ merge →
        run.Live ⟨opening, k + i, .none⟩ → run.Runs sites head.1
  | .none _ => fun _ _ _ _ i head hi => by cases hi
  | .arm ht hmore => fun howns ho hsites hfirst i head hi hne hlive => by
    obtain ⟨hrow, hrest⟩ := howns.arm ho
    cases i with
    | zero =>
      cases hi
      exact ht.runs hw hne hrow (fun s hs => hsites s (List.mem_append_left _ hs)) hfirst hlive
    | succ i =>
      have hindex : k + (i + 1) = k + 1 + i := by omega
      rw [hindex] at hlive
      exact Arms.Traces.runs hw hmore hrest (by omega)
        (fun s hs => hsites s (List.mem_append_right _ hs)) (by omega) i head hi hne hlive

/-- From an entered place, the branches that one goes on to are entered. -/
theorem Row.Bridges.runs (hw : w.Sound) (hp : w.Picks pick) (h : run.Resolves w pick sites)
    {a : Place} {r : Row} {q : Port} {p : Nat} (hb : Row.Bridges w a r)
    (howns : r.Owns run.wires q p) (hsites : ∀ s ∈ r.sites p, s ∈ sites) (hq : q.Leaves sites a)
    (hfirst : run.first < p) (hlive : run.Live q) {u : NodeId} (hu : w.Onward pick a u)
    (hne : u ≠ w.mergeOf a) : run.Runs sites u := by
  obtain ⟨head, hhead, rfl⟩ := hw.exists_branch_of_ne (hu.mem_next hp) hne
  have hblock : ∀ arms, Arms.Traces w (w.mergeOf a) (w.branches a) arms →
      arms.InBlock .done run.wires q p → (∀ s ∈ arms.sites (p + 2), s ∈ sites) →
      (∀ i, (w.branches a)[i]? = some head → run.isOpen p i) → run.Runs sites head.1 := by
    intro arms ht hblock hinside hopen
    obtain ⟨i, hi⟩ := List.mem_iff_getElem?.mp hhead
    have hentered := (run.entered_iff_of_single (Nat.ne_of_gt hfirst) hblock.opening).mpr hlive
    refine ht.runs hw hblock.inside (Nat.lt_succ_self _) hinside (by omega) i head hi hne ?_
    rw [Nat.zero_add]
    exact ⟨hentered, hopen i hi⟩
  cases hb with
  | skip _ hnil =>
    rw [hnil] at hhead
    cases hhead
  | single _ hone ht =>
    rw [hone, List.mem_singleton] at hhead
    subst hhead
    exact ht.runs hw hne howns hsites hfirst hlive
  | @fork _ arms hplain _ ht =>
    refine hblock arms ht howns.fork (fun s hs => hsites s (by simp [Row.sites, hs]))
      fun i hi => ?_
    exact (h.fork_iff (hsites _ (by simp [Row.sites])) hplain hi).mpr hu
  | @decision _ arms hdefault ht =>
    obtain ⟨default, hdefault, -⟩ := hdefault
    refine hblock arms ht howns.decision (fun s hs => hsites s (by simp [Row.sites, hs]))
      fun i hi => ?_
    exact (h.decision_iff hw (hsites _ (by simp [Row.sites])) hq (List.ne_nil_of_mem hdefault)
      howns.decision.opening hi).mpr hu

/-! ## A row agrees with the resolution -/

/-- A place and what lies behind its merge point. -/
theorem Row.agrees_stretch (hw : w.Sound) (hp : w.Picks pick) (h : run.Resolves w pick sites)
    {a : Place} {inner next : Row} {stop : Nat} {q : Port} {p : Nat} (hb : Row.Bridges w a inner)
    (ht : Row.Traces w (w.mergeOf a) stop next) (howns : (inner.append next).Owns run.wires q p)
    (hsites : ∀ s ∈ (inner.append next).sites p, s ∈ sites) (hq : q.Leaves sites a)
    (hfirst : run.first < p) (ha : a.rank ≤ w.size) (hactive : run.Live q → w.ActiveAt pick a)
    (hstop : run.Live ((inner.append next).exit q p) → stop < w.size → run.Runs sites stop)
    (ihb : inner.Owns run.wires q p → (∀ s ∈ inner.sites p, s ∈ sites) →
      (run.Live (inner.exit q p) → w.mergeOf a < w.size → run.Runs sites (w.mergeOf a)) →
        run.Agrees w pick sites (inner.sites p))
    (iht : next.Owns run.wires (inner.exit q p) (p + inner.size) →
      (∀ s ∈ next.sites (p + inner.size), s ∈ sites) →
      (run.Live (inner.exit q p) → w.mergeOf a < w.size → w.Active pick (w.mergeOf a)) →
      (run.Live (next.exit (inner.exit q p) (p + inner.size)) → stop < w.size →
        run.Runs sites stop) → run.Agrees w pick sites (next.sites (p + inner.size))) :
    run.Agrees w pick sites ((inner.append next).sites p) ∧
      (run.Live q → ∀ u, w.Onward pick a u → run.Runs sites u) := by
  obtain ⟨hinner, hnext⟩ := howns.append
  rw [Row.sites_append] at hsites ⊢
  rw [Row.exit_append] at hstop
  have hsites₁ : ∀ s ∈ inner.sites p, s ∈ sites := fun s hs => hsites s (List.mem_append_left _ hs)
  have hsites₂ : ∀ s ∈ next.sites (p + inner.size), s ∈ sites :=
    fun s hs => hsites s (List.mem_append_right _ hs)
  have hthrough : run.Live (inner.exit q p) ↔ run.Live q :=
    inner.live_exit q p hinner (hb.opened hw hp h hinner hsites₁ hq) (.inl hfirst)
  have hbehind := next.live_exit (inner.exit q p) (p + inner.size) hnext
    (ht.opened hw hp h hnext hsites₂) (.inl (Nat.lt_add_right _ hfirst))
  -- The merge point is the first task of the rest, or the stop if there is no rest.
  have hmerge : run.Live (inner.exit q p) → w.mergeOf a < w.size →
      run.Runs sites (w.mergeOf a) := by
    intro hlive hlt
    by_cases hne : w.mergeOf a = stop
    · rw [hne] at hlt ⊢
      exact hstop (hbehind.mpr hlive) hlt
    · exact ht.runs hw hne hnext hsites₂ (Nat.lt_add_right _ hfirst) hlive
  refine ⟨(ihb hinner hsites₁ hmerge).append (iht hnext hsites₂ (fun hlive hlt => ?_) hstop),
    fun hlive u hu => ?_⟩
  · exact hw.active_mergeOf hp ha (hactive (hthrough.mp hlive)) hlt
  · by_cases hne : u = w.mergeOf a
    · have hlt := (hw.of_mem_next (hu.mem_next hp)).2
      rw [hne] at hlt ⊢
      exact hmerge (hthrough.mpr hlive) hlt
    · exact hb.runs hw hp h hinner hsites₁ hq hfirst hlive hu hne

/-- A block whose arms are open exactly if one goes on to their branches. -/
theorem Arms.agrees_block {a : Place} {arms : Arms} {q : Port} {p : Nat} {role role' : Role}
    (hblock : arms.InBlock .done run.wires q p) (hrole : ∀ t, role ≠ .task t)
    (hrole' : ∀ t, role' ≠ .task t) (hclose : run.isOpen (p + 1) 0) (hfirst : run.first < p)
    (hopens : ∀ (i : Nat) (head : NodeId × Option Condition), (w.branches a)[i]? = some head →
      (run.isOpen p i ↔ w.Onward pick a head.1))
    (hactive : run.Live q → w.ActiveAt pick a)
    (hmerge : run.Live ⟨p + 1, 0, .none⟩ → w.mergeOf a < w.size → run.Runs sites (w.mergeOf a))
    (ih : (∀ (i : Nat) (head : NodeId × Option Condition), (w.branches a)[i]? = some head →
        run.Live ⟨p, 0 + i, .none⟩ → w.Active pick head.1) →
      (∀ e ∈ arms.ends p 0 (p + 2), run.Live e.port → w.mergeOf a < w.size →
        run.Runs sites (w.mergeOf a)) → run.Agrees w pick sites (arms.sites (p + 2))) :
    run.Agrees w pick sites ((p, role) :: (p + 1, role') :: (arms.sites (p + 2) ++ [])) := by
  have hopening := run.entered_iff_of_single (Nat.ne_of_gt hfirst) hblock.opening
  have hclosing := run.entered_closing_iff hblock (Nat.ne_of_gt (Nat.lt_succ_of_lt hfirst))
  have harms := ih ?_ fun e he hlive => hmerge ⟨hclosing.mpr ⟨e, he, hlive⟩, hclose⟩
  · intro v t hv
    rw [List.append_nil, List.mem_cons, List.mem_cons] at hv
    rcases hv with hv | hv | hv
    · exact absurd (Prod.mk.inj hv).2.symm (hrole t)
    · exact absurd (Prod.mk.inj hv).2.symm (hrole' t)
    · exact harms v t hv
  · rintro i head hi ⟨hentered, hopen⟩
    have hopen' : run.isOpen p (0 + i) := hopen
    rw [Nat.zero_add] at hopen'
    exact ((hopens i head hi).mp hopen').active (hactive (hopening.mp hentered))

mutual

/-- A stretch that is only entered if its first node is active, and behind which the stop is
entered. -/
theorem Row.Traces.agrees (hw : w.Sound) (hp : w.Picks pick) (h : run.Resolves w pick sites)
    {id stop : Nat} {r : Row} {q : Port} {p : Nat} : Row.Traces w id stop r →
      r.Owns run.wires q p → (∀ s ∈ r.sites p, s ∈ sites) → run.first < p →
      (run.Live q → id < w.size → w.Active pick id) →
      (run.Live (r.exit q p) → stop < w.size → run.Runs sites stop) →
        run.Agrees w pick sites (r.sites p)
  | .done _ => fun _ _ _ _ _ v t hv => by cases hv
  | @Row.Traces.task _ id stop n inner next hne hn hb ht =>
    fun howns hsites hfirst hactive hstop => by
    have hid : n.id = id := hw.dag.id_eq id n hn
    have hself : (p, Role.task n.task) ∈ sites := hsites _ List.mem_cons_self
    have hentered := run.entered_iff_of_single (Nat.ne_of_gt hfirst) howns.task.1
    have hactive' : run.entered p → w.Active pick id :=
      fun hv => hactive (hentered.mp hv) (Dag.lt_size hn)
    obtain ⟨hrest, honward⟩ := Row.agrees_stretch hw hp h hb ht howns.task.2
      (fun s hs => hsites s (List.mem_cons_of_mem _ hs)) ⟨n.task, hself, hid⟩
      (Nat.lt_succ_of_lt hfirst) (Workflow.rank_le hn) (fun hlive => hactive' hlive.1) hstop
      (fun hown hin hmerge => Row.Bridges.agrees hw hp h hb hown hin ⟨n.task, hself, hid⟩
        (Nat.lt_succ_of_lt hfirst) (fun hlive => hactive' hlive.1) hmerge)
      (fun hown hin hmerge hstop => Row.Traces.agrees hw hp h ht hown hin
        (by omega) hmerge hstop)
    intro v t hv hentered'
    rcases List.mem_cons.mp hv with hv | hv
    · cases hv
      have hsource : n.task.source = id := hid
      rw [hsource]
      exact ⟨hactive' hentered', honward ⟨hentered', h.all p _ hself (by simp) 0⟩⟩
    · exact hrest v t hv hentered'

theorem Row.Bridges.agrees (hw : w.Sound) (hp : w.Picks pick) (h : run.Resolves w pick sites)
    {a : Place} {r : Row} {q : Port} {p : Nat} : Row.Bridges w a r → r.Owns run.wires q p →
      (∀ s ∈ r.sites p, s ∈ sites) → q.Leaves sites a → run.first < p →
      (run.Live q → w.ActiveAt pick a) →
      (run.Live (r.exit q p) → w.mergeOf a < w.size → run.Runs sites (w.mergeOf a)) →
        run.Agrees w pick sites (r.sites p)
  | .skip _ _ => fun _ _ _ _ _ _ v t hv => by cases hv
  | @Row.Bridges.single _ a head _ hplain hone ht => fun howns hsites _ hfirst hactive hmerge => by
    have hmem : head ∈ w.next a :=
      Workflow.mem_next_of_mem_branches (h := (head, none)) (hone ▸ List.mem_singleton_self _)
    rw [Workflow.next_eq, hplain, List.map_nil, List.append_nil] at hmem
    exact Row.Traces.agrees hw hp h ht howns hsites hfirst
      (fun hlive _ => Workflow.Onward.active (.plain hmem) (hactive hlive)) hmerge
  | @Row.Bridges.fork _ a arms hplain _ ht => fun howns hsites _ hfirst hactive hmerge => by
    refine Arms.agrees_block howns.fork (by simp) (by simp)
      (h.all (p + 1) .join (hsites _ (by simp [Row.sites])) (by simp) 0) hfirst
      (fun i head hi => h.fork_iff (hsites _ (by simp [Row.sites])) hplain hi) hactive hmerge ?_
    exact Arms.Traces.agrees hw hp h ht howns.fork.inside
      (fun s hs => hsites s (by simp [Row.sites, hs])) (Nat.lt_succ_self _) (by omega)
  | @Row.Bridges.decision _ a arms hdefault ht => fun howns hsites hq hfirst hactive hmerge => by
    obtain ⟨default, hdefault, -⟩ := hdefault
    have hchoices : w.choices a ≠ [] := List.ne_nil_of_mem hdefault
    refine Arms.agrees_block howns.decision (by simp) (by simp)
      (h.all (p + 1) .decisionJoin (hsites _ (by simp [Row.sites])) (by simp) 0) hfirst
      (fun i head hi => h.decision_iff hw (hsites _ (by simp [Row.sites])) hq hchoices
        howns.decision.opening hi) hactive hmerge ?_
    exact Arms.Traces.agrees hw hp h ht howns.decision.inside
      (fun s hs => hsites s (by simp [Row.sites, hs])) (Nat.lt_succ_self _) (by omega)

theorem Arms.Traces.agrees (hw : w.Sound) (hp : w.Picks pick) (h : run.Resolves w pick sites)
    {merge : Nat} {heads : List (NodeId × Option Condition)} {arms : Arms} {opening k p : Nat} :
    Arms.Traces w merge heads arms → arms.Owns run.wires opening k p →
      (∀ s ∈ arms.sites p, s ∈ sites) → opening + 1 < p → run.first < p →
      (∀ (i : Nat) (head : NodeId × Option Condition), heads[i]? = some head →
        run.Live ⟨opening, k + i, .none⟩ → w.Active pick head.1) →
      (∀ e ∈ arms.ends opening k p, run.Live e.port → merge < w.size → run.Runs sites merge) →
        run.Agrees w pick sites (arms.sites p)
  | .none _ => fun _ _ _ _ _ _ v t hv => by cases hv
  | .arm ht hmore => fun howns hsites ho hfirst hactive hmerge => by
    obtain ⟨hrow, hrest⟩ := howns.arm ho
    refine Run.Agrees.append ?_ ?_
    · exact Row.Traces.agrees hw hp h ht hrow (fun s hs => hsites s (List.mem_append_left _ hs))
        hfirst (fun hlive _ => hactive 0 _ rfl hlive) (hmerge _ List.mem_cons_self)
    · refine Arms.Traces.agrees hw hp h hmore hrest
        (fun s hs => hsites s (List.mem_append_right _ hs)) (by omega) (by omega)
        (fun i head hi hlive => hactive (i + 1) head hi ?_)
        (fun e he => hmerge e (List.mem_cons_of_mem _ he))
      have hindex : k + (i + 1) = k + 1 + i := by omega
      rw [hindex]
      exact hlive

end

theorem Row.Outlines.agrees (hw : w.Sound) (hp : w.Picks pick) (h : run.Resolves w pick sites)
    {r : Row} {q : Port} {p : Nat} (ho : Row.Outlines w r) (howns : r.Owns run.wires q p)
    (hsites : ∀ s ∈ r.sites p, s ∈ sites) (hfirst : run.first < p) :
    run.Agrees w pick sites (r.sites p) ∧
      (run.Live q → ∀ u, w.Onward pick .source u → run.Runs sites u) := by
  cases ho with
  | mk hb ht _ =>
    exact Row.agrees_stretch hw hp h hb ht howns hsites trivial hfirst (Nat.zero_le _)
      (fun _ => trivial) (fun _ hlt => absurd hlt (Nat.lt_irrefl _))
      (fun hown hin hmerge => hb.agrees hw hp h hown hin trivial hfirst (fun _ => trivial) hmerge)
      (fun hown hin hmerge hstop => ht.agrees hw hp h hown hin (Nat.lt_add_right _ hfirst) hmerge
        hstop)

/-! ## Resolved graphs -/

/-- Every way is open, except that at the decision that follows a node only the branch at the index
of the node's picked child is. -/
def Graph.Resolves (g : Graph) (w : Workflow) (pick : NodeId → NodeId) (v : VertexId) (i : Nat) :
    Prop :=
  ∀ x, g.get? v = some x → x.role = .decision → ∃ a u n b, g.Wraps a u ∧ g.Child a v ∧
    w.node? u = some n ∧ n.conditionalChildren[i]? = some b ∧ b.node = pick u

theorem Graph.Shows.resolves {g : Graph} {r : Row} (hs : g.Shows r) :
    (hs.run (g.Resolves w pick)).Resolves w pick (r.sites 2) := by
  constructor
  case all =>
    intro v role hv hne i x hx hrole
    exact absurd (hs.role_unique (Row.mem_allSites_of_mem_sites hv)
      ((hs.role_iff v _).mp ⟨x, hx, hrole⟩)) hne
  case picked =>
    intro v hv i
    constructor
    · intro hopen
      obtain ⟨x, hx, hrole⟩ := (hs.role_iff v _).mpr (Row.mem_allSites_of_mem_sites hv)
      obtain ⟨a, u, n, b, hwraps, hchild, hn, hb, hpick⟩ := hopen x hx hrole
      obtain ⟨t, ht, rfl⟩ := hs.wraps_iff.mp hwraps
      obtain ⟨e, he, htarget, rfl⟩ := hs.child_iff.mp hchild
      exact ⟨e, he, htarget, t, b, ht, (Workflow.choices_node hn).symm ▸ hb, hpick⟩
    · rintro ⟨e, he, htarget, t, b, ht, hb, hpick⟩ x hx hrole
      obtain ⟨n, hn, -⟩ :=
        Workflow.exists_node_of_choices (List.ne_nil_of_mem (List.mem_of_getElem? hb))
      rw [Workflow.choices_node hn] at hb
      exact ⟨e.port.source, t.source, n, b, hs.wraps_iff.mpr ⟨t, ht, rfl⟩,
        hs.child_iff.mpr ⟨e, he, htarget, rfl⟩, hn, hb, hpick⟩
  case unique =>
    intro v t t' ht ht'
    exact Role.task.inj (hs.role_unique (Row.mem_allSites_of_mem_sites ht)
      (Row.mem_allSites_of_mem_sites ht'))

/-- Whatever is picked for the nodes with conditional children, a vertex of the lowered graph is
entered exactly if the node that it wraps is active in the workflow; and every node is wrapped. -/
theorem Workflow.Built.lowered_active_iff {w : Workflow} (hb : w.Built) {g : Graph}
    (hg : Graph.ofWorkflow w = .ok g) {pick : NodeId → NodeId} (hp : w.Picks pick) :
    (∀ a u, g.Wraps a u → (g.Entered (g.Resolves w pick) a ↔ w.Active pick u)) ∧
      ∀ u < w.size, ∃ a, ∀ x, g.Wraps x u ↔ x = a := by
  have hw := hb.sound
  obtain ⟨-, r, ho, hshows⟩ := hw.ofWorkflow_ends.good_of_eq hg
  have hresolves : (hshows.run (g.Resolves w pick)).Resolves w pick (r.sites 2) :=
    hshows.resolves
  obtain ⟨hagrees, honward⟩ := ho.agrees hw hp hresolves r.owns_allWires (fun _ hs => hs)
    Nat.two_pos
  have hlive : (hshows.run (g.Resolves w pick)).Live ⟨0, 0, none⟩ := by
    refine ⟨.start hshows.start_eq, fun x hx hrole => ?_⟩
    have hdecision := (hshows.role_iff 0 _).mp ⟨x, hx, hrole⟩
    have hstart : (0, Role.start) ∈ r.allSites := Row.mem_allSites.mpr (.inl ⟨rfl, rfl⟩)
    cases hshows.role_unique hstart hdecision
  refine ⟨fun a u hwraps => ?_, fun u hu => hshows.exists_wraps hw ho hu⟩
  obtain ⟨t, ht, rfl⟩ := hshows.wraps_iff.mp hwraps
  constructor
  · exact fun hentered => (hagrees a t ht hentered).1
  · intro hactive
    have hruns := hactive.closed (P := (hshows.run (g.Resolves w pick)).Runs (r.sites 2))
      (honward hlive) ?_
    · obtain ⟨v, t', ht', hsource, hentered⟩ := hruns
      have hnodup : r.ids.Nodup := by
        cases ho with
        | mk _ _ hnodup => exact hnodup
      rw [Row.site_unique hnodup ht ht' hsource.symm]
      exact hentered
    · rintro _ v ⟨x, t', ht', rfl, hentered⟩ hon
      exact (hagrees x t' ht' hentered).2 v hon

/-- The decision of the workflow may take its empty branch. -/
theorem nightly_active_iff : Workflow.nightly.Picks (fun _ => 5) ∧
    (∀ a u, Graph.nightly.Wraps a u →
      (Graph.nightly.Entered (Graph.nightly.Resolves .nightly fun _ => 5) a ↔
        Workflow.nightly.Active (fun _ => 5) u)) ∧
    ∀ u < Workflow.nightly.size, ∃ a, ∀ x, Graph.nightly.Wraps x u ↔ x = a := by
  have hall : ∀ n ∈ Workflow.nightly.nodes, n.conditionalChildren ≠ [] →
      5 ∈ n.conditionalChildren.map Branch.node := by decide
  have hpicks : Workflow.nightly.Picks fun _ => 5 :=
    fun _ n hn hcond => hall n (List.mem_of_getElem? hn) hcond
  exact ⟨hpicks, Workflow.nightly_built.lowered_active_iff Graph.ofWorkflow_nightly hpicks⟩

end BatchFlow

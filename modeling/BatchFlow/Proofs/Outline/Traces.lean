import BatchFlow.Outline
import BatchFlow.Proofs.Workflow.MergePoints

/-!
# Rows that trace a workflow

What a successful walk writes, said without the walk: a row traces the stretch from a node to a stop
when it begins with the node, goes on with a block that bridges the node and its merge point, and
then traces the stretch from the merge point to the stop. The nodes of such a row are those ahead of
the node but not ahead of the stop.
-/

namespace BatchFlow

namespace Workflow

/-- The plain ways out of a place. -/
def plain (w : Workflow) : Place → List NodeId
  | .source => w.roots
  | .node id => ((w.node? id).map Node.plainChildren).getD []

/-- The conditional ways out of a place. -/
def choices (w : Workflow) : Place → List Branch
  | .source => []
  | .node id => ((w.node? id).map Node.conditionalChildren).getD []

/-- The branches that a place opens: all conditional ones, or the plain ones that do not begin where
they merge. -/
def branches (w : Workflow) (a : Place) : List (NodeId × Option Condition) :=
  if w.choices a = [] then ((w.plain a).filter (· ≠ w.mergeOf a)).map (·, none)
  else (w.choices a).map fun b => (b.node, some b.condition)

theorem next_eq (w : Workflow) (a : Place) :
    w.next a = w.plain a ++ (w.choices a).map Branch.node := by
  cases a with
  | source => simp [next, plain, choices]
  | node id =>
    simp only [next, childrenOf, plain, choices]
    cases w.node? id <;> rfl

theorem plain_node {w : Workflow} {id : Nat} {n : Node} (hn : w.node? id = some n) :
    w.plain (.node id) = n.plainChildren := by simp [plain, hn]

theorem choices_node {w : Workflow} {id : Nat} {n : Node} (hn : w.node? id = some n) :
    w.choices (.node id) = n.conditionalChildren := by simp [choices, hn]

theorem rank_le {w : Workflow} {id : Nat} {n : Node} (hn : w.node? id = some n) :
    (Place.node id).rank ≤ w.size := Dag.lt_size hn

theorem mem_next_of_mem_branches {w : Workflow} {a : Place} {h : NodeId × Option Condition}
    (hh : h ∈ w.branches a) : h.1 ∈ w.next a := by
  rw [next_eq, List.mem_append]
  unfold branches at hh
  split at hh
  · obtain ⟨c, hc, rfl⟩ := List.mem_map.mp hh
    exact .inl (List.mem_filter.mp hc).1
  · obtain ⟨b, hb, rfl⟩ := List.mem_map.mp hh
    exact .inr (List.mem_map_of_mem hb)

end Workflow

mutual

/-- The row covers the stretch from a node up to, but without, a stop. -/
inductive Row.Traces (w : Workflow) : NodeId → NodeId → Row → Prop
  | done (stop : NodeId) : Row.Traces w stop stop .done
  | task {id stop : NodeId} {n : Node} {inner next : Row} : id ≠ stop → w.node? id = some n →
      Row.Bridges w (.node id) inner → Row.Traces w (w.mergeOf (.node id)) stop next →
      Row.Traces w id stop (.task n (inner.append next))

/-- The row covers what lies between a place and where its branches merge. -/
inductive Row.Bridges (w : Workflow) : Place → Row → Prop
  | skip {a : Place} : w.choices a = [] → w.branches a = [] → Row.Bridges w a .done
  | single {a : Place} {head : NodeId} {row : Row} : w.choices a = [] →
      w.branches a = [(head, none)] → Row.Traces w head (w.mergeOf a) row → Row.Bridges w a row
  | fork {a : Place} {arms : Arms} : w.choices a = [] → 2 ≤ (w.branches a).length →
      Arms.Traces w (w.mergeOf a) (w.branches a) arms → Row.Bridges w a (.fork arms .done)
  | decision {a : Place} {arms : Arms} : (∃ b ∈ w.choices a, b.condition.isDefault = true) →
      Arms.Traces w (w.mergeOf a) (w.branches a) arms → Row.Bridges w a (.decision arms .done)

/-- Each arm covers the stretch from its head up to where the arms merge. -/
inductive Arms.Traces (w : Workflow) :
    NodeId → List (NodeId × Option Condition) → Arms → Prop
  | none (merge : NodeId) : Arms.Traces w merge [] .none
  | arm {merge head : NodeId} {condition : Option Condition} {row : Row}
      {heads : List (NodeId × Option Condition)} {more : Arms} :
      Row.Traces w head merge row → Arms.Traces w merge heads more →
      Arms.Traces w merge ((head, condition) :: heads) (.arm condition row more)

end

/-! ### The nodes of a row -/

def Arms.ids (arms : Arms) : List NodeId := arms.nodes.map Node.id

namespace Row

@[simp] theorem ids_done : Row.done.ids = [] := rfl

@[simp] theorem ids_task (n : Node) (next : Row) : (Row.task n next).ids = n.id :: next.ids := rfl

@[simp] theorem ids_fork (arms : Arms) (next : Row) :
    (Row.fork arms next).ids = arms.ids ++ next.ids := by simp [ids, Arms.ids, nodes]

@[simp] theorem ids_decision (arms : Arms) (next : Row) :
    (Row.decision arms next).ids = arms.ids ++ next.ids := by simp [ids, Arms.ids, nodes]

theorem ids_append : ∀ r s : Row, (r.append s).ids = r.ids ++ s.ids
  | .done, s => rfl
  | .task n next, s => by simp [append, ids_append next s]
  | .fork arms next, s
  | .decision arms next, s => by simp [append, ids_append next s]

end Row

@[simp] theorem Arms.ids_none : Arms.none.ids = [] := rfl

@[simp] theorem Arms.ids_arm (c : Option Condition) (row : Row) (more : Arms) :
    (Arms.arm c row more).ids = row.ids ++ more.ids := by simp [Arms.ids, Row.ids, Arms.nodes]

/-! ### What lies on a stretch -/

namespace Workflow

/-- What lies ahead of a place but not ahead of a stop. -/
def On (w : Workflow) (a : Place) (stop x : NodeId) : Prop :=
  Within w.Flow a (.node stop) (.node x)

/-- Every path from a place to the sink passes the stop. -/
def Stops (w : Workflow) (stop : NodeId) (a : Place) : Prop :=
  Through w.Flow (.node stop) a w.sink

theorem not_on_self {w : Workflow} {stop x : NodeId} : ¬ w.On (.node stop) stop x :=
  fun h => h.2 h.1

theorem ne_sink {w : Workflow} {a : Place} (ha : a.rank ≤ w.size) : a ≠ w.sink := by
  rintro rfl
  exact absurd ha (Nat.not_succ_le_self w.size)

namespace Sound

variable {w : Workflow} (hw : w.Sound)
include hw

theorem le_of_stops {a : Place} {stop : Nat} (ha : a.rank ≤ w.size + 1) (h : w.Stops stop a) :
    stop ≤ w.size := by
  have := hw.ranked.le (h.leads_right (hw.leads_sink ha))
  exact Nat.le_of_succ_le_succ this

theorem lt_of_stops {id stop : Nat} (hi : id ≤ w.size) (h : w.Stops stop (.node id))
    (hne : id ≠ stop) : id < w.size := by
  refine Nat.lt_of_le_of_ne hi fun he => hne ?_
  subst he
  have hs := hw.ranked.le (h.leads_left (.refl : Leads w.Flow w.sink w.sink))
  exact Nat.le_antisymm (Nat.le_of_succ_le_succ hs) (hw.le_of_stops (Nat.le_refl _) h)

theorem lt_of_on {a : Place} {stop x : Nat} (hstop : stop ≤ w.size) (hne : a ≠ .node x)
    (h : w.On a stop x) : x < w.size := by
  have hle : x + 1 ≤ w.size + 1 := hw.rank_le_of_leads h.1 hne
  refine Nat.lt_of_le_of_ne (Nat.le_of_succ_le_succ hle) ?_
  rintro rfl
  exact h.2 (hw.leads_sink (Nat.succ_le_succ hstop))

theorem mergeOf_le {a : Place} (ha : a.rank ≤ w.size) : w.mergeOf a ≤ w.size :=
  hw.le_of_stops (Nat.le_succ_of_le ha) (hw.immediatePostDominator_mergeOf ha).passed

/-- Branches merge behind the place that opens them. -/
theorem rank_lt_mergeOf {a : Place} (ha : a.rank ≤ w.size) :
    a.rank < (Place.node (w.mergeOf a)).rank := by
  have hm := hw.immediatePostDominator_mergeOf ha
  have hleads := hm.passed.leads_left (hw.leads_sink (Nat.le_succ_of_le ha))
  exact (hw.ranked.eq_or_lt hleads).resolve_left (Ne.symm hm.ne)

theorem stops_mergeOf {a : Place} (ha : a.rank ≤ w.size) {c : Nat} (hc : c ∈ w.next a) :
    w.Stops (w.mergeOf a) (.node c) :=
  (hw.immediatePostDominator_mergeOf ha).through_of_edge (ne_sink ha) (.edge hc)

theorem stops_of_mergeOf {a : Place} (ha : a.rank ≤ w.size) {stop : Nat} (h : w.Stops stop a)
    (hne : a ≠ .node stop) : w.Stops stop (.node (w.mergeOf a)) :=
  (hw.immediatePostDominator_mergeOf ha).closest _ (Ne.symm hne) h

/-- A stretch is its first place, what the branches hold, and the rest from the merge point on. -/
theorem on_iff {a : Place} (ha : a.rank ≤ w.size) {stop x : Nat} (h : w.Stops stop a)
    (hne : a ≠ .node stop) :
    w.On a stop x ↔ .node x = a ∨ (∃ c ∈ w.next a, w.On (.node c) (w.mergeOf a) x) ∨
      w.On (.node (w.mergeOf a)) stop x := by
  have hm := hw.immediatePostDominator_mergeOf ha
  rw [On, within_iff hw.ranked (hw.leads_sink (Nat.le_succ_of_le ha)) hm h (Ne.symm hne)]
  refine or_congr_right (or_congr_left ⟨?_, fun ⟨c, hc, hx⟩ => ⟨.node c, .edge hc, hx⟩⟩)
  rintro ⟨b, hb, hx⟩
  cases hb with
  | edge hv => exact ⟨_, hv, hx⟩
  | leaf _ _ =>
    have hle := hw.mergeOf_le ha
    have hx' : x < w.size ∨ w.sink = .node x := by
      by_cases hsx : w.sink = .node x
      · exact .inr hsx
      · exact .inl (hw.lt_of_on hle hsx hx)
    rcases hx' with hx' | hx'
    · have := hw.ranked.le hx.1
      exact absurd (Nat.le_of_succ_le_succ this) (Nat.not_le_of_lt hx')
    · rw [← hx'] at hx
      exact absurd (hw.leads_sink (a := .node (w.mergeOf a)) (Nat.succ_le_succ hle)) hx.2

theorem plain_eq_nil_of_choices {a : Place} (h : w.choices a ≠ []) : w.plain a = [] := by
  cases a with
  | source => exact absurd rfl h
  | node id =>
    cases hn : w.node? id with
    | none => simp [choices, hn] at h
    | some n =>
      rw [choices_node hn] at h
      rw [plain_node hn]
      exact (hw.dag.tidy id n hn).unmixed.resolve_right h

/-- A way out that is no branch begins where the branches merge. -/
theorem exists_branch_of_ne {a : Place} {c : NodeId} (hc : c ∈ w.next a) (hcm : c ≠ w.mergeOf a) :
    ∃ h ∈ w.branches a, h.1 = c := by
  rw [next_eq] at hc
  unfold branches
  split
  · rename_i hnil
    refine ⟨(c, none), List.mem_map_of_mem (List.mem_filter.mpr ⟨?_, by simpa using hcm⟩), rfl⟩
    simpa [hnil] using hc
  · rename_i hcons
    rw [hw.plain_eq_nil_of_choices hcons, List.nil_append] at hc
    obtain ⟨b, hb, rfl⟩ := List.mem_map.mp hc
    exact ⟨(b.node, some b.condition), List.mem_map_of_mem hb, rfl⟩

theorem exists_branch_iff {a : Place} {x : Nat} :
    (∃ h ∈ w.branches a, w.On (.node h.1) (w.mergeOf a) x) ↔
      ∃ c ∈ w.next a, w.On (.node c) (w.mergeOf a) x := by
  constructor
  · rintro ⟨h, hh, hx⟩
    exact ⟨h.1, mem_next_of_mem_branches hh, hx⟩
  · rintro ⟨c, hc, hx⟩
    have hcm : c ≠ w.mergeOf a := by
      rintro rfl
      exact not_on_self hx
    obtain ⟨h, hh, rfl⟩ := hw.exists_branch_of_ne hc hcm
    exact ⟨h, hh, hx⟩

theorem branches_stop {a : Place} (ha : a.rank ≤ w.size) :
    ∀ h ∈ w.branches a, h.1 ≤ w.size ∧ w.Stops (w.mergeOf a) (.node h.1) := by
  intro h hh
  have hnext := mem_next_of_mem_branches hh
  exact ⟨Nat.le_of_lt (hw.of_mem_next hnext).2, hw.stops_mergeOf ha hnext⟩

end Sound
end Workflow

variable {w : Workflow}

mutual

/-- A row holds exactly the nodes on its stretch. -/
theorem Row.Traces.mem_ids (hw : w.Sound) {id stop : Nat} {r : Row} : Row.Traces w id stop r →
    id ≤ w.size → w.Stops stop (.node id) → ∀ x : Nat, x ∈ r.ids ↔ w.On (.node id) stop x
  | .done _, _, _ => fun x => by simp [Workflow.not_on_self]
  | .task (n := n) hne hn hb ht, hi, hs => fun x => by
    have ha := Workflow.rank_le hn
    have hne' : Place.node id ≠ .node stop := fun h => hne (Place.node.inj h)
    have hinner := Row.Bridges.mem_ids hw hb ha x
    have hnext := Row.Traces.mem_ids hw ht (hw.mergeOf_le ha) (hw.stops_of_mergeOf ha hs hne') x
    rw [hw.on_iff ha hs hne', Row.ids_task, List.mem_cons, Row.ids_append, List.mem_append, hinner,
      hnext, hw.dag.id_eq id n hn, Place.node.injEq]

theorem Row.Bridges.mem_ids (hw : w.Sound) {a : Place} {r : Row} : Row.Bridges w a r →
    a.rank ≤ w.size → ∀ x : Nat, x ∈ r.ids ↔ ∃ c ∈ w.next a, w.On (.node c) (w.mergeOf a) x
  | .skip _ hb, _ => fun x => by
    rw [← hw.exists_branch_iff, hb]
    simp
  | .single _ hb ht, ha => fun x => by
    obtain ⟨hle, hs⟩ := hw.branches_stop ha _ (hb ▸ List.mem_singleton_self _)
    rw [← hw.exists_branch_iff, hb, Row.Traces.mem_ids hw ht hle hs x]
    simp
  | .fork _ _ ht, ha
  | .decision _ ht, ha => fun x => by
    simp only [← hw.exists_branch_iff, Row.ids_fork, Row.ids_decision, Row.ids_done,
      List.append_nil]
    exact Arms.Traces.mem_ids hw ht (hw.branches_stop ha) x

theorem Arms.Traces.mem_ids (hw : w.Sound) {merge : Nat}
    {heads : List (NodeId × Option Condition)} {arms : Arms} : Arms.Traces w merge heads arms →
    (∀ h ∈ heads, h.1 ≤ w.size ∧ w.Stops merge (.node h.1)) →
    ∀ x : Nat, x ∈ arms.ids ↔ ∃ h ∈ heads, w.On (.node h.1) merge x
  | .none _, _ => fun x => by simp
  | .arm ht hmore, hh => fun x => by
    obtain ⟨hle, hs⟩ := hh _ List.mem_cons_self
    have hrest := Arms.Traces.mem_ids hw hmore (fun h hm => hh h (List.mem_cons_of_mem _ hm)) x
    rw [Arms.ids_arm, List.mem_append, Row.Traces.mem_ids hw ht hle hs x, hrest]
    simp

end

end BatchFlow

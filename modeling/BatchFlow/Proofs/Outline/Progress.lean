import BatchFlow.Lowering
import BatchFlow.Proofs.Outline.Walk
import BatchFlow.Proofs.Workflow.Built

/-!
# Walks make progress

A walk goes from merge point to merge point until it meets its stop, and at each node on its way it
begins a walk for each branch. In a built workflow the stop of every walk that is begun is its first
node or post-dominates it. So the walk comes to greater and greater ids and meets its stop before it
could pass the last node, and the walks for branches start at ids that are greater than that of the
node that opens the branches.

So neither the bound of a walk nor the answer behind the last node matters. A recursion that has no
bound, and does anything behind the last node, has one solution on the walks that are begun: the
walk within any bound that exceeds the number of nodes. This holds whatever the recursion does for a
walk that is not begun by the rules given here, so the rules miss none.
-/

namespace BatchFlow
namespace Workflow

/-- The nodes that a walk to a stop comes to from a node, the stop included. -/
inductive ComesTo (w : Workflow) (stop : NodeId) : NodeId → NodeId → Prop
  | here (first : NodeId) : ComesTo w stop first first
  | onward {first id : NodeId} : ComesTo w stop first id → id ≠ stop →
      ComesTo w stop first (w.mergeOf (.node id))

/-- The walks that are begun, from a first node to a stop, and the places that begin them. -/
inductive Begins (w : Workflow) : Place → NodeId → NodeId → Prop
  /-- The walk from where the roots merge to the end. -/
  | rest : Begins w .source (w.mergeOf .source) w.size
  | root {h : NodeId × Option Condition} : h ∈ w.branches .source →
      Begins w .source h.1 (w.mergeOf .source)
  | branch {a : Place} {first stop id : NodeId} {h : NodeId × Option Condition} :
      Begins w a first stop → ComesTo w stop first id → id ≠ stop → h ∈ w.branches (.node id) →
      Begins w (.node id) h.1 (w.mergeOf (.node id))

/-- Some walk to the stop comes to the node. -/
def Visits (w : Workflow) (id stop : NodeId) : Prop :=
  ∃ a first, w.Begins a first stop ∧ w.ComesTo stop first id

/-- What a walk asks for at a node that it comes to: a walk for each branch, and how to go on from
the merge point. The node and the stop stand on the right. -/
inductive Asks (w : Workflow) : NodeId × NodeId → NodeId × NodeId → Prop
  | branch {id stop : NodeId} {h : NodeId × Option Condition} : w.Visits id stop → id ≠ stop →
      h ∈ w.branches (.node id) → Asks w (h.1, w.mergeOf (.node id)) (id, stop)
  | onward {id stop : NodeId} : w.Visits id stop → id ≠ stop →
      Asks w (w.mergeOf (.node id), stop) (id, stop)

theorem Asks.visits {w : Workflow} {p q : NodeId × NodeId} (h : w.Asks p q) :
    w.Visits p.1 p.2 := by
  cases h with
  | branch hvisits hne hh =>
    obtain ⟨a, first, hbegins, hcomes⟩ := hvisits
    exact ⟨_, _, hbegins.branch hcomes hne hh, .here _⟩
  | onward hvisits hne =>
    obtain ⟨a, first, hbegins, hcomes⟩ := hvisits
    exact ⟨a, first, hbegins, hcomes.onward hne⟩

/-- How a walk goes that a place begins. Ids stand for places in the topological order. -/
structure Progress (w : Workflow) (a : Place) (first stop : NodeId) : Prop where
  /-- The stop is the first node or post-dominates it. -/
  stops : w.Stops stop (.node first)
  inside : first ≤ stop ∧ stop ≤ w.size
  /-- The walk begins behind the place. -/
  later : a.rank < (Place.node first).rank
  meets : w.ComesTo stop first stop
  onward : ∀ id, w.ComesTo stop first id → id ≠ stop → id < w.size ∧ id < w.mergeOf (.node id)

end Workflow

namespace Outline

/-- One turn of a walk that has come to a node, as a function of the walks that the turn calls. It
does not say what a walk does that has passed the last node. -/
def turn (w : Workflow) (m : MergePoints) (astray walk : Walk) : Walk := fun id stop seen =>
  if id = stop then .ok .done
  else match w.node? id with
    | none => astray id stop seen
    | some n =>
        if seen.contains id then .error (.metTwice id)
        else do
          let merge := m.ofNode id
          let seen := seen ++ [id]
          let inner ← block walk n merge seen
          let next ← walk merge stop (seen ++ inner.ids)
          return .task n (inner.append next)

/-- What a walk answers that has passed the last node. -/
def beyond : Walk := fun id _ _ => .error (.pastEnd id)

theorem walk_succ (w : Workflow) (m : MergePoints) (bound : Nat) :
    Outline.walk w m (bound + 1) = turn w m beyond (Outline.walk w m bound) := rfl

/-- The walk takes its turns without a bound, wherever walks that are begun come to. -/
def Solves (w : Workflow) (astray walk : Walk) : Prop :=
  ∀ id stop, w.Visits id stop → ∀ seen,
    walk id stop seen = turn w w.mergePoints astray walk id stop seen

/-! ## What a turn calls -/

variable {walk walk' : Walk}

theorem armsOf_congr {merge : NodeId} {heads : List (NodeId × Option Condition)}
    (h : ∀ head ∈ heads, ∀ seen, walk head.1 merge seen = walk' head.1 merge seen)
    (seen : List NodeId) : armsOf walk merge heads seen = armsOf walk' merge heads seen := by
  induction heads generalizing seen with
  | nil => rfl
  | cons head rest ih =>
    have hrest := ih fun head hmem => h head (List.mem_cons_of_mem _ hmem)
    simp only [armsOf, h head List.mem_cons_self, hrest]

theorem parallel_congr {merge : NodeId} {heads : List NodeId}
    (h : ∀ head ∈ heads.filter (· ≠ merge), ∀ seen,
      walk head merge seen = walk' head merge seen) (seen : List NodeId) :
    parallel walk heads merge seen = parallel walk' heads merge seen := by
  unfold parallel
  match hheads : heads.filter (· ≠ merge) with
  | [] => rfl
  | [head] => exact h head (hheads ▸ List.mem_singleton_self head) seen
  | first :: second :: rest =>
    have harms : ∀ head ∈ (first :: second :: rest).map fun c => (c, (none : Option Condition)),
        ∀ seen, walk head.1 merge seen = walk' head.1 merge seen := by
      intro head hmem
      obtain ⟨c, hc, rfl⟩ := List.mem_map.mp hmem
      exact h c (hheads ▸ hc)
    simp only [armsOf_congr harms]

theorem block_congr {w : Workflow} {id : NodeId} {n : Node} (hn : w.node? id = some n)
    (h : ∀ head ∈ w.branches (.node id), ∀ seen,
      walk head.1 (w.mergeOf (.node id)) seen = walk' head.1 (w.mergeOf (.node id)) seen)
    (seen : List NodeId) :
    block walk n (w.mergeOf (.node id)) seen = block walk' n (w.mergeOf (.node id)) seen := by
  have hchoices := Workflow.choices_node hn
  unfold block
  by_cases hnil : n.conditionalChildren = []
  · rw [if_pos (List.isEmpty_iff.mpr hnil), if_pos (List.isEmpty_iff.mpr hnil)]
    refine parallel_congr (fun head hmem => h (head, none) ?_) seen
    rw [Workflow.branches, if_pos (hchoices.trans hnil), Workflow.plain_node hn]
    exact List.mem_map_of_mem hmem
  · rw [if_neg (by simpa using hnil), if_neg (by simpa using hnil)]
    rw [Workflow.branches, if_neg (hchoices ▸ hnil), hchoices] at h
    unfold choice
    simp only [armsOf_congr h]

end Outline

/-! ## Where walks come to -/

namespace Workflow.Sound

variable {w : Workflow} (hw : w.Sound)
include hw

theorem lt_mergeOf {id : Nat} (hid : id < w.size) : id < w.mergeOf (.node id) :=
  Nat.lt_of_succ_lt_succ (hw.rank_lt_mergeOf (a := .node id) hid)

/-- What a walk comes to is stopped by its stop, too. -/
theorem stops_of_comesTo {first stop id : Nat} (hle : first ≤ w.size)
    (hs : w.Stops stop (.node first)) (h : w.ComesTo stop first id) :
    id ≤ w.size ∧ w.Stops stop (.node id) := by
  induction h with
  | here => exact ⟨hle, hs⟩
  | @onward id _ hne ih =>
    have hid : (Place.node id).rank ≤ w.size := hw.lt_of_stops ih.1 ih.2 hne
    exact ⟨hw.mergeOf_le hid, hw.stops_of_mergeOf hid ih.2 fun he => hne (Place.node.inj he)⟩

/-- A walk meets its stop. -/
theorem meets {first stop : Nat} (hle : first ≤ w.size) (hs : w.Stops stop (.node first)) :
    w.ComesTo stop first stop := by
  -- Each merge point on the way leaves fewer ids up to the sink.
  have hall : ∀ d (id : Nat), w.size - id = d → w.ComesTo stop first id →
      w.ComesTo stop first stop := by
    intro d
    induction d using Nat.strong_induction_on with
    | _ d ih =>
      intro id hd hid
      by_cases hne : id = stop
      · exact hne ▸ hid
      · obtain ⟨hidle, hids⟩ := hw.stops_of_comesTo hle hs hid
        have hlt : id < w.size := hw.lt_of_stops hidle hids hne
        have hmerge := hw.lt_mergeOf hlt
        exact ih (w.size - w.mergeOf (.node id)) (by omega) _ rfl (hid.onward hne)
  exact hall _ first rfl (.here first)

/-- A walk begins behind the place that begins it. -/
theorem begins_later {a : Place} {first stop : Nat} (h : w.Begins a first stop) :
    a.rank < (Place.node first).rank ∧ first ≤ w.size ∧ w.Stops stop (.node first) := by
  have hsource : Place.source.rank ≤ w.size := Nat.zero_le _
  induction h with
  | rest =>
    exact ⟨hw.rank_lt_mergeOf hsource, hw.mergeOf_le hsource, through_last⟩
  | root hh =>
    exact ⟨(hw.of_mem_next (mem_next_of_mem_branches hh)).1, hw.branches_stop hsource _ hh⟩
  | @branch _ _ _ id _ _ hcomes hne hh ih =>
    obtain ⟨hle, hs⟩ := hw.stops_of_comesTo ih.2.1 ih.2.2 hcomes
    have hid : (Place.node id).rank ≤ w.size := hw.lt_of_stops hle hs hne
    exact ⟨(hw.of_mem_next (mem_next_of_mem_branches hh)).1, hw.branches_stop hid _ hh⟩

theorem progress {a : Place} {first stop : Nat} (h : w.Begins a first stop) :
    w.Progress a first stop := by
  obtain ⟨hlater, hle, hs⟩ := hw.begins_later h
  constructor
  case stops => exact hs
  case inside =>
    have hrank : (Place.node first).rank ≤ w.size + 1 := Nat.succ_le_succ hle
    have hfirst := hw.ranked.le (hs.leads_left (hw.leads_sink hrank))
    exact ⟨Nat.le_of_succ_le_succ hfirst, hw.le_of_stops hrank hs⟩
  case later => exact hlater
  case meets => exact hw.meets hle hs
  case onward =>
    intro id hid hne
    obtain ⟨hidle, hids⟩ := hw.stops_of_comesTo hle hs hid
    have hlt := hw.lt_of_stops hidle hids hne
    exact ⟨hlt, hw.lt_mergeOf hlt⟩

theorem stops_of_visits {id stop : Nat} (h : w.Visits id stop) :
    id ≤ w.size ∧ w.Stops stop (.node id) := by
  obtain ⟨a, first, hbegins, hcomes⟩ := h
  obtain ⟨-, hle, hs⟩ := hw.begins_later hbegins
  exact hw.stops_of_comesTo hle hs hcomes

theorem lt_size_of_visits {id stop : Nat} (h : w.Visits id stop) (hne : id ≠ stop) :
    id < w.size := by
  obtain ⟨hle, hs⟩ := hw.stops_of_visits h
  exact hw.lt_of_stops hle hs hne

/-- A walk asks for nothing but what lies behind. -/
theorem lt_of_asks {id stop id' stop' : Nat} (h : w.Asks (id', stop') (id, stop)) :
    id < id' ∧ id' ≤ w.size := by
  refine ⟨?_, (hw.stops_of_visits h.visits).1⟩
  cases h with
  | branch hvisits hne hh =>
    exact Nat.lt_of_succ_lt_succ (hw.of_mem_next (mem_next_of_mem_branches hh)).1
  | onward hvisits hne => exact hw.lt_mergeOf (hw.lt_size_of_visits hvisits hne)

/-- No chain of walks goes on for ever. -/
theorem asks_wellFounded : WellFounded w.Asks := by
  let left : NodeId × NodeId → Nat := fun p => w.size - p.1
  refine Subrelation.wf (fun {p q} h => ?_) (measure left).wf
  obtain ⟨id', stop'⟩ := p
  obtain ⟨id, stop⟩ := q
  obtain ⟨hlt, hle⟩ := hw.lt_of_asks h
  show w.size - id' < w.size - id
  omega

end Workflow.Sound

/-! ## The recursion without a bound -/

namespace Outline

variable {w : Workflow} (hw : w.Sound)
include hw

/-- A turn is made of what it asks for, and nothing else matters to it. -/
theorem turn_congr {id stop : Nat} (h : w.Visits id stop) {astray astray' walk walk' : Walk}
    (hasked : ∀ id' stop', w.Asks (id', stop') (id, stop) → ∀ seen,
      walk id' stop' seen = walk' id' stop' seen) (seen : List NodeId) :
    turn w w.mergePoints astray walk id stop seen =
      turn w w.mergePoints astray' walk' id stop seen := by
  unfold turn
  by_cases hne : id = stop
  · rw [if_pos hne, if_pos hne]
  rw [if_neg hne, if_neg hne]
  obtain ⟨n, hn⟩ : ∃ n, w.node? id = some n :=
    Dag.get?_eq_some_iff.mpr (hw.lt_size_of_visits h hne)
  have hblock : ∀ seen, block walk n (w.mergePoints.ofNode id) seen =
      block walk' n (w.mergePoints.ofNode id) seen :=
    block_congr hn fun head hmem => hasked head.1 _ (.branch h hne hmem)
  have hnext : ∀ seen, walk (w.mergePoints.ofNode id) stop seen =
      walk' (w.mergePoints.ofNode id) stop seen := hasked _ stop (.onward h hne)
  simp only [hn, hblock, hnext]

/-- Two bounds that reach the sink make no difference. -/
theorem walk_eq_of_bounds {bound bound' : Nat} {id stop : Nat} (h : w.Visits id stop)
    (hb : w.size < id + bound) (hb' : w.size < id + bound') (seen : List NodeId) :
    Outline.walk w w.mergePoints bound id stop seen =
      Outline.walk w w.mergePoints bound' id stop seen := by
  have hle := (hw.stops_of_visits h).1
  induction bound generalizing bound' id stop seen with
  | zero => omega
  | succ bound ih =>
    cases bound' with
    | zero => omega
    | succ bound' =>
      rw [walk_succ, walk_succ]
      refine turn_congr hw h (fun id' stop' hasks seen => ?_) seen
      obtain ⟨hlt, hle'⟩ := hw.lt_of_asks hasks
      exact ih hasks.visits (by omega) (by omega) seen hle'

/-- The walk within a bound takes its turns as if it had none. -/
theorem walk_solves {bound : Nat} (hb : w.size < bound) (astray : Walk) :
    Solves w astray (Outline.walk w w.mergePoints bound) := by
  intro id stop h seen
  cases bound with
  | zero => omega
  | succ bound =>
    show turn w w.mergePoints beyond (Outline.walk w w.mergePoints bound) id stop seen = _
    refine turn_congr hw h (fun id' stop' hasks seen => ?_) seen
    obtain ⟨hlt, -⟩ := hw.lt_of_asks hasks
    exact walk_eq_of_bounds hw hasks.visits (by omega) (by omega) seen

/-- All walks without a bound are one, whatever they would do where they never come to. -/
theorem Solves.unique {astray astray' walk walk' : Walk} (h : Solves w astray walk)
    (h' : Solves w astray' walk') {id stop : Nat} (hvisits : w.Visits id stop)
    (seen : List NodeId) : walk id stop seen = walk' id stop seen := by
  obtain ⟨p, hp⟩ : ∃ p, p = (id, stop) := ⟨_, rfl⟩
  induction p using hw.asks_wellFounded.induction generalizing id stop seen with
  | _ p ih =>
    subst hp
    rw [h id stop hvisits, h' id stop hvisits]
    refine turn_congr hw hvisits (fun id' stop' hasks seen => ?_) seen
    exact ih (id', stop') hasks hasks.visits seen rfl

theorem solves_iff {bound : Nat} (hb : w.size < bound) (astray walk : Walk) :
    Solves w astray walk ↔ ∀ id stop, w.Visits id stop → ∀ seen,
      walk id stop seen = Outline.walk w w.mergePoints bound id stop seen := by
  have hbound := walk_solves hw hb astray
  constructor
  · intro h id stop hvisits seen
    exact h.unique hw hbound hvisits seen
  · intro h id stop hvisits seen
    rw [h id stop hvisits, hbound id stop hvisits]
    refine turn_congr hw hvisits (fun id' stop' hasks seen => ?_) seen
    exact (h id' stop' hasks.visits seen).symm

/-- The bound does not end a walk, and the walk does not pass the last node. -/
theorem fault_of_walk {bound : Nat} (hb : w.size < bound) {id stop : Nat}
    (h : w.Visits id stop) {seen : List NodeId} {f : Fault}
    (hf : Outline.walk w w.mergePoints bound id stop seen = .error f) :
    (∃ x, f = .noDefault x) ∨ ∃ x, f = .metTwice x := by
  obtain ⟨hle, hs⟩ := hw.stops_of_visits h
  have hwalk := walk_faithful hw (by omega : w.size < 0 + bound)
  exact ((hwalk id stop seen (Nat.zero_le id) hle hs).bad_of_eq hf).eq_or

/-- Nor is a node missed by the outline. -/
theorem fault_of_ofMergePoints {f : Fault} (hf : ofMergePoints w w.mergePoints = .error f) :
    (∃ x, f = .noDefault x) ∨ ∃ x, f = .metTwice x :=
  ((ofMergePoints_ends hw).bad_of_eq hf).eq_or

/-- No node is missed by a walk from the source that goes well. -/
theorem mem_ids_of_walk {bound : Nat} (hb : w.size < bound) {opening rest : Row}
    (hopening : parallel (Outline.walk w w.mergePoints bound) w.roots (w.mergeOf .source) [] =
      .ok opening)
    (hrest : Outline.walk w w.mergePoints bound (w.mergeOf .source) w.size opening.ids = .ok rest)
    {id : Nat} (hid : id < w.size) : id ∈ (opening.append rest).ids := by
  have hsource : Place.source.rank ≤ w.size := Nat.zero_le _
  have hwalk := walk_faithful hw (by omega : w.size < 0 + bound)
  obtain ⟨hbridges, -⟩ := (parallel_ends hw hsource rfl hwalk []).good_of_eq hopening
  have hle := hw.mergeOf_le hsource
  have hends := hwalk (w.mergeOf .source) w.size opening.ids (Nat.zero_le _) hle through_last
  obtain ⟨htraces, -⟩ := hends.good_of_eq hrest
  exact (mem_ids_append hw hbridges htraces id).mpr hid

end Outline

namespace Workflow

/-- How a workflow is walked through. -/
structure WalksThrough (w : Workflow) : Prop where
  order_eq : w.topologicalOrder = .ok (List.range w.size)
  outline_eq : w.outline = (Outline.ofMergePoints w w.mergePoints).mapError (·.toGraphError w)
  progress : ∀ a first stop, w.Begins a first stop → w.Progress a first stop
  /-- No chain of walks, each asked for by the one before, goes on for ever. -/
  ends : WellFounded w.Asks
  /-- Whatever is done behind the last node, there is a walk without a bound, and it answers as the
  walk within any bound above the number of nodes. -/
  solves_iff : ∀ bound, w.size < bound → ∀ astray walk, Outline.Solves w astray walk ↔
    ∀ id stop, w.Visits id stop → ∀ seen,
      walk id stop seen = Outline.walk w w.mergePoints bound id stop seen
  /-- Where a walk fails, it has neither run out of its bound nor passed the last node. -/
  fault : ∀ bound, w.size < bound → ∀ id stop, w.Visits id stop → ∀ seen f,
    Outline.walk w w.mergePoints bound id stop seen = .error f →
      (∃ x, f = .noDefault x) ∨ ∃ x, f = .metTwice x
  /-- The outline does not fail because of its bound, at the sink, or for a node it missed. -/
  outline_fault : ∀ f, Outline.ofMergePoints w w.mergePoints = .error f →
    (∃ x, f = .noDefault x) ∨ ∃ x, f = .metTwice x
  /-- When the walks from the source have gone well, they have met every node. -/
  covers : ∀ bound, w.size < bound → ∀ opening rest,
    Outline.parallel (Outline.walk w w.mergePoints bound) w.roots (w.mergeOf .source) [] =
      .ok opening →
    Outline.walk w w.mergePoints bound (w.mergeOf .source) w.size opening.ids = .ok rest →
      ∀ id < w.size, id ∈ (opening.append rest).ids

/-- The walks through a built workflow make progress: each stop is met before the last node could be
passed, walks for branches begin behind the node that opens them, and so the recursion ends. If it
ends well, no node is missed. -/
theorem Built.walks_through {w : Workflow} (hb : w.Built) : w.WalksThrough := by
  have hw := hb.sound
  constructor
  case order_eq => exact hw.topologicalOrder_eq
  case outline_eq =>
    unfold outline
    rw [hw.topologicalOrder_eq]
    rfl
  case progress =>
    intro a first stop h
    exact hw.progress h
  case ends => exact hw.asks_wellFounded
  case solves_iff =>
    intro bound hbound astray walk
    exact Outline.solves_iff hw hbound astray walk
  case fault =>
    intro bound hbound id stop h seen f hf
    exact Outline.fault_of_walk hw hbound h hf
  case outline_fault =>
    intro f hf
    exact Outline.fault_of_ofMergePoints hw hf
  case covers =>
    intro bound hbound opening rest hopening hrest id hid
    exact Outline.mem_ids_of_walk hw hbound hopening hrest hid

/-- Of the walks for the branches of one node, the second begins at its stop. -/
theorem nightly_walks_through :
    nightly.Begins (.node 3) 4 5 ∧ nightly.Progress (.node 3) 4 5 ∧
    nightly.Begins (.node 3) 5 5 ∧ nightly.Progress (.node 3) 5 5 ∧ nightly.WalksThrough := by
  have hwalks := nightly_built.walks_through
  have hroots : nightly.Begins .source 0 6 := .rest
  have hcomes : nightly.ComesTo 6 0 3 := (ComesTo.here 0).onward (by decide)
  have hlong : (4, some Condition.otherwise) ∈ nightly.branches (.node 3) := by decide
  have hshort : (5, some (Condition.labeled "small")) ∈ nightly.branches (.node 3) := by decide
  have hbegins : ∀ h ∈ nightly.branches (.node 3), nightly.Begins (.node 3) h.1 5 :=
    fun h hh => hroots.branch hcomes (by decide) hh
  exact ⟨hbegins _ hlong, hwalks.progress _ _ _ (hbegins _ hlong), hbegins _ hshort,
    hwalks.progress _ _ _ (hbegins _ hshort), hwalks⟩

end Workflow
end BatchFlow

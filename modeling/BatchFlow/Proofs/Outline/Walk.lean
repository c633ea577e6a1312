import BatchFlow.Proofs.Outcome
import BatchFlow.Proofs.Outline.Traces

/-!
# What a walk finds

A walk from a node to a stop that all its paths pass either writes a row that traces the stretch, or
it stops for a reason that lies in the workflow: a node without a default among its conditional
children, or a node that is crossed. Its own bounds never end it.

A node that is met twice is crossed because of how the walk goes: what every path to the node passes
was met before the node was, so the second meeting is the first one in its arm.
-/

namespace BatchFlow

namespace Workflow

/-- A node with conditional children has no default among them. -/
def LacksDefault (w : Workflow) (id : NodeId) : Prop :=
  ∃ n, w.node? id = some n ∧ n.conditionalChildren ≠ [] ∧ n.defaultChild? = none

/-- A node of the workflow with two ways in that no dominator of its own merges at. -/
def CrossedAt (w : Workflow) (x : NodeId) : Prop :=
  x < w.size ∧ Crossed w.Flow .source w.sink (.node x)

/-- A node ahead that was seen before, while nothing that every path to it passes was. -/
structure Meets (w : Workflow) (a : Place) (stop : NodeId) (seen : List NodeId) (x : NodeId) :
    Prop where
  was_seen : x ∈ seen
  on : w.On a stop x
  first : ∀ y ∈ seen, y ≠ x → ¬ Through w.Flow (.node y) a (.node x)

end Workflow

namespace Outline

/-- The fault lies in the workflow, or a node was met twice that was seen before the walk. -/
def Fault.LiesIn (w : Workflow) (met : NodeId → Prop) : Fault → Prop
  | noDefault id => w.LacksDefault id
  | metTwice id => w.CrossedAt id ∨ met id
  | _ => False

theorem Fault.LiesIn.mono {w : Workflow} {met met' : NodeId → Prop} {f : Fault}
    (h : f.LiesIn w met) (hm : ∀ x, met x → w.CrossedAt x ∨ met' x) : f.LiesIn w met' := by
  cases f with
  | noDefault id => exact h
  | metTwice id => exact h.elim .inl (hm id)
  | _ => exact h

theorem Fault.LiesIn.eq_or {w : Workflow} {met : NodeId → Prop} {f : Fault}
    (h : f.LiesIn w met) : (∃ x, f = .noDefault x) ∨ ∃ x, f = .metTwice x := by
  cases f with
  | noDefault x => exact .inl ⟨x, rfl⟩
  | metTwice x => exact .inr ⟨x, rfl⟩
  | _ => exact h.elim

/-- Nodes that are all different and were not seen before. -/
def Fresh (ids seen : List NodeId) : Prop := ids.Nodup ∧ ∀ x ∈ ids, x ∉ seen

theorem Fresh.append {ids ids' seen : List NodeId} (h : Fresh ids seen)
    (h' : Fresh ids' (seen ++ ids)) : Fresh (ids ++ ids') seen := by
  refine ⟨List.nodup_append.mpr ⟨h.1, h'.1, fun x hx y hy hxy => ?_⟩, fun x hx => ?_⟩
  · exact h'.2 y hy (List.mem_append_right _ (hxy ▸ hx))
  · rcases List.mem_append.mp hx with hx | hx
    · exact h.2 x hx
    · exact fun hs => h'.2 x hx (List.mem_append_left _ hs)

/-- What a walk does for the nodes from `low` on. -/
def Faithful (w : Workflow) (walk : Walk) (low : Nat) : Prop :=
  ∀ (id stop : Nat) seen, low ≤ id → id ≤ w.size → w.Stops stop (.node id) →
    Ends (fun r => Row.Traces w id stop r ∧ Fresh r.ids seen)
      (Fault.LiesIn w (w.Meets (.node id) stop seen)) (walk id stop seen)

variable {w : Workflow} (hw : w.Sound)
include hw

/-- Two branches of a place that hold a node, the second of which meets it first. -/
theorem crossedAt_of_branches {a : Place} (ha : a.rank ≤ w.size) {c d x : Nat}
    (hc : c ∈ w.next a) (hd : d ∈ w.next a) (hcd : c ≠ d) (hcx : w.On (.node c) (w.mergeOf a) x)
    (hdx : Leads w.Flow (.node d) (.node x))
    (hfirst : ∀ y : Nat, w.On (.node c) (w.mergeOf a) y → y ≠ x →
      ¬ Through w.Flow (.node y) (.node d) (.node x)) : w.CrossedAt x := by
  have hx : x < w.size := by
    by_cases hne : Place.node c = .node x
    · rw [← Place.node.inj hne]
      exact (hw.of_mem_next hc).2
    · exact hw.lt_of_on (hw.mergeOf_le ha) hne hcx
  have hsource : Leads w.Flow .source a := by
    cases a with
    | source => exact .refl
    | node u => exact hw.source_leads (Nat.le_of_lt ha)
  refine ⟨hx, crossed_of_branches hw.ranked hsource (hw.immediatePostDominator_mergeOf ha)
    (.edge hc) (.edge hd) (fun h => hcd (Place.node.inj h)) hcx.1 hdx hcx.2
    (hw.leads_sink (Nat.succ_le_succ (Nat.le_of_lt hx))) fun y hyx hcy hthrough => ?_⟩
  cases y with
  | source => exact absurd (hw.ranked.le hcy) (Nat.not_succ_le_zero _)
  | node y =>
    have hyx' : Leads w.Flow (.node y) (.node x) := hthrough.leads_right hdx
    exact hfirst y ⟨hcy, fun h => hcx.2 (h.trans hyx')⟩ (fun h => hyx (h ▸ rfl)) hthrough

/-- The arms of a place. What was seen before them is told apart from what earlier arms hold. -/
theorem armsOf_ends {a : Place} (ha : a.rank ≤ w.size) {walk : Walk}
    (hwalk : Faithful w walk a.rank) {seen : List NodeId}
    {heads : List (NodeId × Option Condition)} {before done : List NodeId}
    (hheads : ∀ h ∈ heads, h.1 ∈ w.next a) (hbefore : ∀ c ∈ before, c ∈ w.next a)
    (hnodup : (before ++ heads.map Prod.fst).Nodup)
    (hdone : ∀ x : Nat, x ∈ done ↔ ∃ c ∈ before, w.On (.node c) (w.mergeOf a) x) :
    Ends (fun arms => Arms.Traces w (w.mergeOf a) heads arms ∧ Fresh arms.ids (seen ++ done))
      (Fault.LiesIn w fun x => ∃ c ∈ w.next a, w.Meets (.node c) (w.mergeOf a) seen x)
      (armsOf walk (w.mergeOf a) heads (seen ++ done)) := by
  -- A head moves from `heads` to `before`, and the nodes of its arm to `done`.
  induction heads generalizing before done with
  | nil => exact ⟨.none _, List.nodup_nil, by simp⟩
  | cons h rest ih =>
    obtain ⟨head, condition⟩ := h
    have hhead : head ∈ w.next a := hheads _ List.mem_cons_self
    obtain ⟨hlow, hlt⟩ := hw.of_mem_next hhead
    have hstops : w.Stops (w.mergeOf a) (.node head) := hw.stops_mergeOf ha hhead
    have hnew : head ∉ before := by
      rw [List.map_cons, List.nodup_append] at hnodup
      exact fun hm => hnodup.2.2 head hm head List.mem_cons_self rfl
    have hfirst := hwalk head (w.mergeOf a) (seen ++ done) (Nat.le_of_lt_succ hlow)
      (Nat.le_of_lt hlt) hstops
    refine Ends.bind (hfirst.mono (fun _ h => h) fun f hf => hf.mono fun x hmet => ?_) ?_
    · rcases List.mem_append.mp hmet.was_seen with hx | hx
      · exact .inr ⟨head, hhead, hx, hmet.on, fun y hy => hmet.first y (List.mem_append_left _ hy)⟩
      -- An earlier arm holds `x`, so two branches cross there.
      · obtain ⟨c, hc, hcx⟩ := (hdone x).mp hx
        refine .inl (crossedAt_of_branches hw ha (hbefore c hc) hhead ?_ hcx hmet.on.1 ?_)
        · exact fun h => hnew (h ▸ hc)
        · intro y hy
          exact hmet.first y (List.mem_append_right _ ((hdone y).mpr ⟨c, hc, hy⟩))
    · rintro row ⟨htrace, hfresh⟩
      have hids : ∀ x : Nat, x ∈ row.ids ↔ w.On (.node head) (w.mergeOf a) x :=
        htrace.mem_ids hw (Nat.le_of_lt hlt) hstops
      have hbefore' : ∀ c ∈ before ++ [head], c ∈ w.next a := by
        intro c hc
        rcases List.mem_append.mp hc with hc | hc
        · exact hbefore c hc
        · exact List.mem_singleton.mp hc ▸ hhead
      have hdone' : ∀ x : Nat, x ∈ done ++ row.ids ↔
          ∃ c ∈ before ++ [head], w.On (.node c) (w.mergeOf a) x := by
        intro x
        rw [List.mem_append, hdone x, hids x]
        simp only [List.mem_append, List.mem_singleton, or_and_right, exists_or, exists_eq_left]
      have hmore := ih (fun h hm => hheads h (List.mem_cons_of_mem _ hm)) hbefore'
        (by simpa using hnodup) hdone'
      rw [← List.append_assoc] at hmore
      refine Ends.bind hmore ?_
      rintro more ⟨hmore, hfresh'⟩
      refine ⟨.arm htrace hmore, ?_⟩
      rw [Arms.ids_arm]
      exact hfresh.append hfresh'

theorem branches_nodup (a : Place) : ((w.branches a).map Prod.fst).Nodup := by
  have hnext := hw.next_nodup a
  rw [w.next_eq, List.nodup_append] at hnext
  unfold Workflow.branches
  split
  · rw [List.map_map]
    exact (List.map_id' _).symm ▸ hnext.1.filter _
  · simpa [Function.comp_def] using hnext.2.1

theorem armsOf_branches_ends {a : Place} (ha : a.rank ≤ w.size) {walk : Walk}
    (hwalk : Faithful w walk a.rank) (seen : List NodeId) :
    Ends (fun arms => Arms.Traces w (w.mergeOf a) (w.branches a) arms ∧ Fresh arms.ids seen)
      (Fault.LiesIn w fun x => ∃ c ∈ w.next a, w.Meets (.node c) (w.mergeOf a) seen x)
      (armsOf walk (w.mergeOf a) (w.branches a) seen) := by
  have harms := @armsOf_ends w hw a ha walk hwalk seen (w.branches a) [] []
    (fun _ => Workflow.mem_next_of_mem_branches) (by simp) (by simpa using branches_nodup hw a)
    (by simp)
  rwa [List.append_nil] at harms

theorem parallel_ends {a : Place} (ha : a.rank ≤ w.size) (hplain : w.choices a = []) {walk : Walk}
    (hwalk : Faithful w walk a.rank) (seen : List NodeId) :
    Ends (fun r => Row.Bridges w a r ∧ Fresh r.ids seen)
      (Fault.LiesIn w fun x => ∃ c ∈ w.next a, w.Meets (.node c) (w.mergeOf a) seen x)
      (parallel walk (w.plain a) (w.mergeOf a) seen) := by
  have hbranches : w.branches a = ((w.plain a).filter (· ≠ w.mergeOf a)).map (·, none) :=
    if_pos hplain
  match hheads : (w.plain a).filter (· ≠ w.mergeOf a) with
  | [] =>
    simp only [parallel, hheads]
    exact ⟨.skip hplain (by rw [hbranches, hheads, List.map_nil]), List.nodup_nil, by simp⟩
  | [head] =>
    simp only [parallel, hheads]
    have hone : w.branches a = [(head, none)] := by rw [hbranches, hheads]; rfl
    have hhead : head ∈ w.next a :=
      Workflow.mem_next_of_mem_branches (hone ▸ List.mem_singleton_self (head, none))
    have hlt := hw.of_mem_next hhead
    have hrow := hwalk head (w.mergeOf a) seen (Nat.le_of_lt_succ hlt.1) (Nat.le_of_lt hlt.2)
      (hw.stops_mergeOf ha hhead)
    refine hrow.mono (fun r hr => ⟨.single hplain hone hr.1, hr.2⟩) fun f hf => hf.mono ?_
    exact fun x hmet => .inr ⟨head, hhead, hmet⟩
  | c :: d :: rest =>
    simp only [parallel, hheads]
    rw [← hheads, ← hbranches]
    refine (armsOf_branches_ends hw ha hwalk seen).bind ?_
    rintro arms ⟨htraces, hfresh⟩
    refine ⟨.fork hplain ?_ htraces, by simpa using hfresh⟩
    rw [hbranches, hheads]
    simp

theorem block_ends {id : Nat} {n : Node} (hn : w.node? id = some n) {walk : Walk}
    (hwalk : Faithful w walk (id + 1)) (seen : List NodeId) :
    Ends (fun r => Row.Bridges w (.node id) r ∧ Fresh r.ids seen)
      (Fault.LiesIn w fun x =>
        ∃ c ∈ w.next (.node id), w.Meets (.node c) (w.mergeOf (.node id)) seen x)
      (block walk n (w.mergeOf (.node id)) seen) := by
  have ha : (Place.node id).rank ≤ w.size := Workflow.rank_le hn
  have hchoices := Workflow.choices_node hn
  unfold block
  by_cases hnil : n.conditionalChildren = []
  · rw [if_pos (List.isEmpty_iff.mpr hnil), ← Workflow.plain_node hn]
    exact parallel_ends hw ha (hchoices.trans hnil) hwalk seen
  · rw [if_neg (by simpa using hnil), choice]
    cases hfind : n.conditionalChildren.find? (·.condition.isDefault) with
    | none =>
      have hdefault : n.defaultChild? = none := by simp [Node.defaultChild?, hfind]
      rw [if_pos (by simp [hdefault]), hw.dag.id_eq id n hn]
      exact ⟨n, hn, hnil, hdefault⟩
    | some b =>
      rw [if_neg (by simp [Node.defaultChild?, hfind])]
      have hbranches : w.branches (.node id) =
          n.conditionalChildren.map fun b => (b.node, some b.condition) := by
        rw [Workflow.branches, if_neg (hchoices ▸ hnil), hchoices]
      rw [← hbranches]
      refine (armsOf_branches_ends hw ha hwalk seen).bind ?_
      rintro arms ⟨htraces, hfresh⟩
      refine ⟨.decision ⟨b, ?_, ?_⟩ htraces, by simpa using hfresh⟩
      · rw [hchoices]
        exact List.mem_of_find?_eq_some hfind
      · simpa using List.find?_some hfind

/-- A node met twice behind a branch is met twice from the place that opens the branch. -/
theorem meets_of_branch {id stop : Nat} {n : Node} (hn : w.node? id = some n)
    (hs : w.Stops stop (.node id)) (hne : id ≠ stop) {seen : List NodeId} (hnew : id ∉ seen)
    {x : NodeId}
    (h : ∃ c ∈ w.next (.node id), w.Meets (.node c) (w.mergeOf (.node id)) (seen ++ [id]) x) :
    w.Meets (.node id) stop seen x := by
  obtain ⟨c, hc, hmet⟩ := h
  have hne' : Place.node id ≠ .node stop := fun h => hne (Place.node.inj h)
  have hx : Place.node id ≠ .node x := by
    intro h
    rw [← Place.node.inj h] at hmet
    exact hw.ranked.not_leads_of_edge (.edge hc) hmet.on.1
  refine ⟨?_, (hw.on_iff (Workflow.rank_le hn) hs hne').mpr (.inr (.inl ⟨c, hc, hmet.on⟩)), ?_⟩
  · refine (List.mem_append.mp hmet.was_seen).resolve_right fun h => hx ?_
    rw [List.mem_singleton.mp h]
  · intro y hy hyx hthrough
    rcases (through_iff_of_ne hx).mp hthrough with h | h
    · exact hnew (Place.node.inj h ▸ hy)
    · exact hmet.first y (List.mem_append_left _ hy) hyx (h _ (.edge hc))

/-- A node met twice behind a merge point was seen before the branches that merge. -/
theorem meets_of_merge {id stop : Nat} {n : Node} (hn : w.node? id = some n)
    (hs : w.Stops stop (.node id)) (hne : id ≠ stop) {seen inner : List NodeId} (hnew : id ∉ seen)
    (hinner : ∀ x ∈ inner, ∃ c ∈ w.next (.node id), w.On (.node c) (w.mergeOf (.node id)) x)
    {x : NodeId} (hmet : w.Meets (.node (w.mergeOf (.node id))) stop (seen ++ [id] ++ inner) x) :
    w.Meets (.node id) stop seen x := by
  have ha : (Place.node id).rank ≤ w.size := Workflow.rank_le hn
  have hm := hw.immediatePostDominator_mergeOf ha
  have hsink : Leads w.Flow (.node id) w.sink := hw.leads_sink (Nat.le_succ_of_le ha)
  have hne' : Place.node id ≠ .node stop := fun h => hne (Place.node.inj h)
  refine ⟨?_, (hw.on_iff ha hs hne').mpr (.inr (.inr hmet.on)), ?_⟩
  · rcases List.mem_append.mp hmet.was_seen with h | h
    · refine (List.mem_append.mp h).resolve_right fun h => ?_
      have hback := hmet.on.1
      rw [List.mem_singleton.mp h] at hback
      exact hm.ne (hw.ranked.antisymm hback (hm.passed.leads_left hsink))
    · obtain ⟨c, -, hx⟩ := hinner x h
      exact absurd hmet.on.1 hx.2
  · intro y hy hyx hthrough
    have hyid : Place.node y ≠ .node id := fun h => hnew (Place.node.inj h ▸ hy)
    have hfirst := hmet.first y (List.mem_append_left _ (List.mem_append_left _ hy)) hyx
    -- What all ways to `x` pass comes before the merge point or after it.
    rcases hthrough.before_or_after (.node (w.mergeOf (.node id))) with h | h
    · have hpost := hm.closest _ hyid (h.trans_left hm.passed)
      have hahead := hpost.leads_left (hm.passed.leads_right hsink)
      have hbehind := h.leads_right (hm.passed.leads_left hsink)
      rw [hw.ranked.antisymm hbehind hahead] at hfirst
      exact hfirst through_first
    · exact hfirst h

/-- A walk does what it should from every id that its bound reaches the sink from. -/
theorem walk_faithful {bound low : Nat} (hbound : w.size < low + bound) :
    Faithful w (Outline.walk w w.mergePoints bound) low := by
  -- A deeper walk has one step less and starts at a greater id.
  induction bound generalizing low with
  | zero =>
    intro id stop seen hlow hi
    omega
  | succ bound ih =>
    intro id stop seen hlow hi hs
    unfold Outline.walk
    by_cases hne : id = stop
    · rw [if_pos hne, hne]
      exact ⟨.done stop, List.nodup_nil, by simp⟩
    rw [if_neg hne]
    have hlt := hw.lt_of_stops hi hs hne
    obtain ⟨n, hn⟩ : ∃ n, w.node? id = some n := Dag.get?_eq_some_iff.mpr hlt
    simp only [hn]
    -- A node that was seen before is itself the one that is met twice.
    by_cases hseen : id ∈ seen
    · rw [if_pos (by simpa using hseen)]
      refine .inr ⟨hseen, ⟨.refl, fun h => ?_⟩, fun y _ hyx h => ?_⟩
      · have hback := hw.ranked.antisymm h (hs.leads_left (hw.leads_sink (Nat.succ_le_succ hi)))
        exact hne (Place.node.inj hback).symm
      · exact hyx (Place.node.inj (List.mem_singleton.mp (h _ (.here _))))
    rw [if_neg (by simpa using hseen)]
    have ha : (Place.node id).rank ≤ w.size := Workflow.rank_le hn
    have hdeeper : Faithful w (Outline.walk w w.mergePoints bound) (id + 1) := ih (by omega)
    refine Ends.bind ((block_ends hw hn hdeeper (seen ++ [id])).mono (fun _ h => h) ?_) ?_
    · exact fun f hf => hf.mono fun x hmet => .inr (meets_of_branch hw hn hs hne hseen hmet)
    rintro inner ⟨hbridges, hfresh⟩
    have hids : ∀ x : Nat, x ∈ inner.ids ↔ _ := hbridges.mem_ids hw ha
    have hrank : id + 1 ≤ w.mergeOf (.node id) := Nat.le_of_lt_succ (hw.rank_lt_mergeOf ha)
    have hrest := hdeeper (w.mergeOf (.node id)) stop (seen ++ [id] ++ inner.ids) hrank
      (hw.mergeOf_le ha) (hw.stops_of_mergeOf ha hs fun h => hne (Place.node.inj h))
    refine Ends.bind (hrest.mono (fun _ h => h) ?_) ?_
    · exact fun f hf => hf.mono fun x hmet =>
        .inr (meets_of_merge hw hn hs hne hseen (fun x hx => (hids x).mp hx) hmet)
    rintro next ⟨htraces, hfresh'⟩
    refine ⟨.task hne hn hbridges htraces, ?_⟩
    have hone : Fresh [id] seen := ⟨List.nodup_singleton id, by simpa using hseen⟩
    rw [List.append_assoc] at hfresh'
    rw [Row.ids_task, Row.ids_append, hw.dag.id_eq id n hn]
    exact (hone.append hfresh).append hfresh'

end Outline

/-- The row outlines the workflow: it bridges the source and where the roots merge, goes on to the
sink, and holds no node twice. -/
inductive Row.Outlines (w : Workflow) : Row → Prop
  | mk {opening rest : Row} : Row.Bridges w .source opening →
      Row.Traces w (w.mergeOf .source) w.size rest → (opening.append rest).ids.Nodup →
      Row.Outlines w (opening.append rest)

namespace Outline

variable {w : Workflow} (hw : w.Sound)
include hw

/-- Between the source and the sink stand all nodes. -/
theorem mem_ids_append {opening rest : Row} (ho : Row.Bridges w .source opening)
    (hr : Row.Traces w (w.mergeOf .source) w.size rest) (x : Nat) :
    x ∈ (opening.append rest).ids ↔ x < w.size := by
  have ha : Place.source.rank ≤ w.size := Nat.zero_le _
  have hs : w.Stops w.size .source := through_last
  have hne : Place.source ≠ .node w.size := by simp
  rw [Row.ids_append, List.mem_append, ho.mem_ids hw ha,
    hr.mem_ids hw (hw.mergeOf_le ha) (hw.stops_of_mergeOf ha hs hne)]
  have hon := hw.on_iff ha hs hne (x := x)
  simp only [reduceCtorEq, false_or] at hon
  rw [← hon]
  constructor
  · exact hw.lt_of_on (Nat.le_refl _) (by simp)
  · intro hx
    refine ⟨hw.source_leads (Nat.le_of_lt hx), fun h => ?_⟩
    have hle := hw.ranked.le h
    exact absurd (Nat.le_of_succ_le_succ hle) (Nat.not_le_of_lt hx)

/-- The walk from the source either outlines the workflow or finds what is wrong with it. -/
theorem ofMergePoints_ends :
    Ends (Row.Outlines w) (Fault.LiesIn w fun _ => False) (ofMergePoints w w.mergePoints) := by
  have ha : Place.source.rank ≤ w.size := Nat.zero_le _
  have hne : Place.source ≠ .node w.size := by simp
  have hwalk : Faithful w (Outline.walk w w.mergePoints (w.size + 1)) 0 :=
    walk_faithful hw (by omega)
  unfold ofMergePoints
  refine Ends.bind ((parallel_ends hw ha rfl hwalk []).mono (fun _ h => h) ?_) ?_
  · intro f hf
    refine hf.mono fun x hmet => ?_
    obtain ⟨c, -, hmet⟩ := hmet
    cases hmet.was_seen
  rintro opening ⟨hbridges, hfresh⟩
  have hrest := hwalk (w.mergeOf .source) w.size opening.ids (Nat.zero_le _) (hw.mergeOf_le ha)
    (hw.stops_of_mergeOf ha through_last hne)
  refine Ends.bind (hrest.mono (fun _ h => h) ?_) ?_
  · intro f hf
    refine hf.mono fun x hmet => ?_
    obtain ⟨c, -, hon⟩ := (hbridges.mem_ids hw ha x).mp hmet.was_seen
    exact absurd hmet.on.1 hon.2
  rintro rest ⟨htraces, hfresh'⟩
  have hnodup : (opening.append rest).ids.Nodup := by
    rw [Row.ids_append]
    exact (hfresh.append hfresh').1
  have hall : (List.range w.size).find? (fun id => !(opening.append rest).ids.contains id) =
      none := by
    rw [List.find?_eq_none]
    intro x hx
    have := (mem_ids_append hw hbridges htraces x).mpr (List.mem_range.mp hx)
    simpa using this
  simp only [hall]
  exact .mk hbridges htraces hnodup

end Outline
end BatchFlow

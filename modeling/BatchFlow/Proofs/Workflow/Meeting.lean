import BatchFlow.Proofs.Outline.Traces
import BatchFlow.Proofs.Workflow.Built

/-!
# Where branches meet first

What every path from a node to the sink passes comes in one order on all of these paths, because a
place that comes later on one path lies ahead of the earlier place on every other. So there is one
that all paths meet first, and it is the one of least rank.

The sets of the table may be listed in any order, as `MergePoints.Fills` says, and so may the
candidates for a merge point. What is found depends on their members alone, since no two places
have the same rank.
-/

namespace BatchFlow

/-- On a path to `b`, what every path from `m` to `b` passes comes behind `m`. -/
theorem Path.idxOf_lt_idxOf {α : Type} [DecidableEq α] {edge : α → α → Prop} {rank : α → Nat}
    {a b m y : α} {p : List α} (hr : Ranked edge rank) (h : Path edge a p b) (hm : m ∈ p)
    (hy : Through edge y m b) (hne : y ≠ m) : p.idxOf m < p.idxOf y := by
  induction h with
  | here a =>
    rw [List.mem_singleton] at hm
    subst hm
    exact absurd (List.mem_singleton.mp (hy _ (.here m))) hne
  | @step a c b p e h ih =>
    by_cases ham : a = m
    · subst ham
      rw [List.idxOf_cons_self, List.idxOf_cons_ne _ hne.symm]
      exact Nat.succ_pos _
    · have hmp : m ∈ p := (List.mem_cons.mp hm).resolve_left (Ne.symm ham)
      obtain ⟨q, r, hq, hr', -⟩ := h.split hmp
      have hay : a ≠ y := by
        rintro rfl
        have hcycle := (hy.leads_left hr'.leads)
        exact hr.not_leads_of_edge e (hq.leads.trans hcycle)
      rw [List.idxOf_cons_ne _ ham, List.idxOf_cons_ne _ hay]
      exact Nat.succ_lt_succ (ih hmp hy)

namespace MergePoints

/-- A table that is filled from the end of an order, where each set is listed in any order. -/
inductive Fills (children : NodeId → List NodeId) (sink : NodeId) :
    List NodeId → List (NodeId × List NodeId) → Prop
  | sink {set : List NodeId} : (∀ x, x ∈ set ↔ x = sink) → Fills children sink [] [(sink, set)]
  | node {id : NodeId} {order set : List NodeId} {table : List (NodeId × List NodeId)} :
      Fills children sink order table →
      (∀ x, x ∈ set ↔ x = id ∨ x ∈ common table sink (children id)) →
      Fills children sink (id :: order) ((id, set) :: table)

theorem fills_tableOf (children : NodeId → List NodeId) (sink : NodeId) (order : List NodeId) :
    Fills children sink order (tableOf children sink order) := by
  induction order with
  | nil => exact .sink fun _ => List.mem_singleton
  | cons id rest ih => exact .node ih fun _ => List.mem_cons

/-- The sets of such a table have the same members. -/
theorem Fills.mem_entry_iff {children : NodeId → List NodeId} {sink : NodeId} {order : List NodeId}
    {table : List (NodeId × List NodeId)} (h : Fills children sink order table) (i x : NodeId) :
    x ∈ entry table i ↔ x ∈ entry (tableOf children sink order) i := by
  induction h generalizing i x with
  | @sink set hset =>
    by_cases hi : i = sink
    · subst hi
      rw [entry_cons_self, tableOf, List.foldr_nil, entry_cons_self, hset, List.mem_singleton]
    · rw [entry_cons_of_ne hi, tableOf, List.foldr_nil, entry_cons_of_ne hi]
  | @node id order set table _ hset ih =>
    have htable : tableOf children sink (id :: order) =
        (id, id :: common (tableOf children sink order) sink (children id)) ::
          tableOf children sink order := rfl
    rw [htable]
    by_cases hi : i = id
    · subst hi
      rw [entry_cons_self, entry_cons_self, hset, List.mem_cons, mem_common_iff, mem_common_iff]
      simp only [ih]
    · rw [entry_cons_of_ne hi, entry_cons_of_ne hi, ih]

theorem Fills.mem_common_iff {children : NodeId → List NodeId} {sink : NodeId}
    {order : List NodeId} {table : List (NodeId × List NodeId)}
    (h : Fills children sink order table) (ids : List NodeId) (x : NodeId) :
    x ∈ common table sink ids ↔ x ∈ common (tableOf children sink order) sink ids := by
  simp only [MergePoints.mem_common_iff, h.mem_entry_iff]

/-- The nearest candidate depends on which candidates there are, and not on how they are listed. -/
theorem nearest_congr {m : MergePoints} {cs cs' : List NodeId} (hcs : ∀ x, x ∈ cs ↔ x ∈ cs')
    (hrank : ∀ x ∈ m.sink :: cs, ∀ y ∈ m.sink :: cs, m.rank x = m.rank y → x = y) :
    m.nearest cs = m.nearest cs' := by
  obtain ⟨hmem, hsink, hall⟩ := m.nearest_spec cs
  obtain ⟨hmem', hsink', hall'⟩ := m.nearest_spec cs'
  have hin : m.nearest cs ∈ m.sink :: cs := List.mem_cons.mpr hmem
  have hin' : m.nearest cs' ∈ m.sink :: cs :=
    List.mem_cons.mpr (hmem'.imp_right (hcs _).mpr)
  have hle : ∀ x ∈ m.sink :: cs, m.rank (m.nearest cs) ≤ m.rank x :=
    List.forall_mem_cons.mpr ⟨hsink, hall⟩
  have hle' : ∀ x ∈ m.sink :: cs, m.rank (m.nearest cs') ≤ m.rank x :=
    List.forall_mem_cons.mpr ⟨hsink', fun x hx => hall' x ((hcs x).mp hx)⟩
  exact hrank _ hin _ hin' (Nat.le_antisymm (hle _ hin') (hle' _ hin))

end MergePoints

namespace Workflow

/-- Of what all paths from the node to the sink pass behind the node, all of them meet the place
first. -/
structure MetFirst (w : Workflow) (i m : NodeId) : Prop where
  ne : m ≠ i
  passed : Through w.Flow (.node m) (.node i) w.sink
  first : ∀ y, y ≠ i → y ≠ m → Through w.Flow (.node y) (.node i) w.sink →
    ∀ p, Path w.Flow (.node i) p w.sink → p.idxOf (.node m) < p.idxOf (.node y)

/-- Every path from every root to the sink passes the node. -/
def PassedByAll (w : Workflow) (x : NodeId) : Prop :=
  ∀ r ∈ w.roots, Through w.Flow (.node x) (.node r) w.sink

/-- The first node in the order that every path from every root passes, or the sink if there is
none. -/
def MeetsRoots (w : Workflow) (order : List NodeId) (m : NodeId) : Prop :=
  (m < w.size ∧ w.PassedByAll m ∧
    ∀ y < w.size, w.PassedByAll y → y ≠ m → order.idxOf m < order.idxOf y) ∨
  (m = w.size ∧ ∀ y < w.size, ¬ w.PassedByAll y)

namespace Sound

variable {w : Workflow} (hw : w.Sound)
include hw

theorem metFirst_mergeOf {i : Nat} (hi : i < w.size) : w.MetFirst i (w.mergeOf (.node i)) := by
  have hm := hw.immediatePostDominator_mergeOf (a := .node i) hi
  refine ⟨fun h => hm.ne (congrArg Place.node h), hm.passed, fun y hyi hym hy p hp => ?_⟩
  have hne : Place.node y ≠ .node i := fun h => hyi (Place.node.inj h)
  exact hp.idxOf_lt_idxOf hw.ranked (hm.passed p hp) (hm.closest _ hne hy)
    fun h => hym (Place.node.inj h)

theorem metFirst_unique {i m m' : Nat} (hi : i < w.size) (h : w.MetFirst i m)
    (h' : w.MetFirst i m') : m' = m := by
  by_contra hne
  obtain ⟨p, hp⟩ := (hw.leads_sink (a := .node i) (Nat.le_succ_of_le hi)).exists_path
  have hlt := h.first m' h'.ne hne h'.passed p hp
  exact Nat.lt_asymm hlt (h'.first m h.ne (Ne.symm hne) h.passed p hp)

/-- The branches of a place with one way out meet where it leads. -/
theorem mergeOf_eq_of_next {a : Place} (ha : a.rank ≤ w.size) {c : Nat} (hc : w.next a = [c]) :
    w.mergeOf a = c := by
  have hm := hw.immediatePostDominator_mergeOf ha
  have hmem : c ∈ w.next a := hc ▸ List.mem_singleton_self c
  have hleads : Leads w.Flow (.node c) w.sink :=
    hw.leads_sink (Nat.succ_le_succ (Nat.le_of_lt (hw.of_mem_next hmem).2))
  have hback : Leads w.Flow (.node c) (.node (w.mergeOf a)) :=
    (hm.through_of_edge (ne_sink ha) (.edge hmem)).leads_left hleads
  have hthrough : Through w.Flow (.node c) a w.sink := by
    refine (through_iff_of_ne (ne_sink ha)).mpr (.inr fun b hb => ?_)
    cases hb with
    | edge hv =>
      rw [hc, List.mem_singleton] at hv
      exact hv ▸ through_first
    | leaf _ hnil => exact absurd (hc.symm.trans hnil) (List.cons_ne_nil c [])
  have hne : Place.node c ≠ a := by
    rintro rfl
    exact absurd (hw.of_mem_next hmem).1 (Nat.lt_irrefl _)
  have hahead := hm.leads (.head (.edge hmem) hleads) hthrough hne
  exact Place.node.inj (hw.ranked.antisymm hahead hback)

/-- A way out that is entered from nowhere else is not where the branches meet. -/
theorem ne_mergeOf_of_sole {a : Place} (ha : a.rank ≤ w.size) {c d : Nat} (hc : c ∈ w.next a)
    (hd : d ∈ w.next a) (hne : c ≠ d) (hsole : ∀ b, w.Flow b (.node c) → b = a) :
    c ≠ w.mergeOf a := by
  rintro rfl
  have hleads : Leads w.Flow (.node d) (.node (w.mergeOf a)) :=
    (hw.stops_mergeOf ha hd).leads_left
      (hw.leads_sink (Nat.succ_le_succ (Nat.le_of_lt (hw.of_mem_next hd).2)))
  obtain ⟨b, hb, e⟩ := hleads.exists_last_edge fun h => hne (Place.node.inj h).symm
  exact hw.ranked.not_leads_of_edge (.edge hd) (hsole b e ▸ hb)

/-- The first node is a root. -/
theorem roots_ne_nil (hpos : 0 < w.size) : w.roots ≠ [] := by
  obtain ⟨n, hn⟩ : ∃ n, w.node? 0 = some n := Dag.get?_eq_some_iff.mpr hpos
  have hfirst : n.parents = [] := List.eq_nil_iff_forall_not_mem.mpr fun p hp =>
    Nat.not_lt_zero p (hw.dag.parent_lt 0 n hn p hp)
  exact List.ne_nil_of_mem (hw.mem_roots_iff.mpr ⟨n, hn, hfirst⟩)

theorem through_source_iff {x : Nat} (hx : x < w.size) :
    Through w.Flow (.node x) .source w.sink ↔ w.PassedByAll x := by
  have hroots := hw.roots_ne_nil (Nat.zero_lt_of_lt hx)
  rw [through_sink_iff (Nat.zero_le _)]
  simp [next, hroots, PassedByAll]

/-- Several roots do not meet at one of them. -/
theorem root_ne_mergeOf {c : Nat} (hc : c ∈ w.roots) (htwo : 2 ≤ w.roots.length) :
    c ≠ w.mergeOf .source := by
  obtain ⟨n, hn, hparents⟩ := hw.mem_roots_iff.mp hc
  have hlength : 1 ≤ (w.roots.erase c).length := by
    rw [List.length_erase_of_mem hc]
    exact Nat.le_sub_one_of_lt htwo
  obtain ⟨d, hd⟩ := List.exists_mem_of_length_pos hlength
  obtain ⟨hne, hd⟩ := hw.roots_nodup.mem_erase_iff.mp hd
  refine hw.ne_mergeOf_of_sole (a := .source) (Nat.zero_le _) hc hd hne.symm fun b hb => ?_
  rcases (hw.flow_node_iff hn).mp hb with ⟨hsource, -⟩ | ⟨u, hu, -⟩
  · exact hsource
  · exact absurd hu (hparents ▸ List.not_mem_nil)

theorem meetsRoots_mergeOf : w.MeetsRoots (List.range w.size) (w.mergeOf .source) := by
  have ha : Place.source.rank ≤ w.size := Nat.zero_le _
  have hm := hw.immediatePostDominator_mergeOf ha
  have hle := hw.mergeOf_le ha
  have hahead : ∀ y < w.size, w.PassedByAll y → w.mergeOf .source ≤ y := by
    intro y hy hpassed
    have hthrough := (hw.through_source_iff hy).mpr hpassed
    have hleads := hm.leads (hw.leads_sink (Nat.zero_le _)) hthrough (by simp)
    exact Nat.le_of_succ_le_succ (hw.ranked.le hleads)
  rcases Nat.lt_or_eq_of_le hle with hlt | heq
  · refine .inl ⟨hlt, (hw.through_source_iff hlt).mp hm.passed, fun y hy hpassed hne => ?_⟩
    have hrank : ∀ i ≤ w.size, (List.range w.size).idxOf i = i := fun i => rank_mergePoints
    rw [hrank _ hle, hrank y (Nat.le_of_lt hy)]
    exact Nat.lt_of_le_of_ne (hahead y hy hpassed) (Ne.symm hne)
  · refine .inr ⟨heq, fun y hy hpassed => ?_⟩
    exact absurd (heq ▸ hahead y hy hpassed) (Nat.not_le_of_lt hy)

/-- What all paths from the source pass is what the sets of the roots have in common. -/
theorem mem_common_roots_iff {x : Nat} :
    x ∈ MergePoints.common w.mergePoints.table w.size w.roots ↔
      Through w.Flow (.node x) .source w.sink := by
  have hne : Place.node x ≠ .source := fun h => by cases h
  rw [through_sink_iff (Nat.zero_le _), MergePoints.mem_common_iff]
  simp only [hne, false_or]
  refine and_congr_right fun _ => forall_congr' fun r => forall_congr' fun hr => ?_
  exact hw.mem_entry_iff (Nat.le_of_lt (hw.of_mem_next (a := .source) hr).2)

/-- Whatever lists what competes for a merge point, the same one is found. -/
theorem nearest_eq_mergeOf {a : Place} (ha : a.rank ≤ w.size) {cs : List NodeId}
    (hcs : ∀ x : Nat, x ∈ cs ↔ .node x ≠ a ∧ Through w.Flow (.node x) a w.sink) :
    w.mergePoints.nearest cs = w.mergeOf a := by
  obtain ⟨cs', hm, hcs'⟩ := hw.mergeOf_spec ha
  rw [hm]
  refine MergePoints.nearest_congr (fun x => (hcs x).trans (hcs' x).symm) ?_
  have hle : ∀ x ∈ w.mergePoints.sink :: cs, x ≤ w.size := by
    refine List.forall_mem_cons.mpr ⟨Nat.le_refl _, fun x hx => ?_⟩
    have hleads : Leads w.Flow a w.sink := hw.leads_sink (Nat.le_succ_of_le ha)
    exact Nat.le_of_succ_le_succ (hw.ranked.le (((hcs x).mp hx).2.leads_right hleads))
  intro x hx y hy heq
  rwa [rank_mergePoints (hle x hx), rank_mergePoints (hle y hy)] at heq

end Sound

/-- In whatever order sets are listed while merge points are computed, the set of a node holds what
all its paths to the sink pass, and the merge point is what they meet first; the roots merge at the
first node in topological order that all their paths pass, and a single root at itself. -/
theorem Built.merge_points {w : Workflow} (h : w.Built) :
    ∃ order, w.topologicalOrder = .ok order ∧
      ∀ table, MergePoints.Fills w.childrenOf w.size order table →
        (∀ i < w.size,
          (∀ x, x ∈ MergePoints.entry table i ↔
            Through w.Flow (.node x) (.node i) w.sink) ∧
          ∀ cs, (∀ x, x ∈ cs ↔ x ∈ MergePoints.entry table i ∧ x ≠ i) →
            (⟨order, w.size, table⟩ : MergePoints).nearest cs =
              (MergePoints.ofOrder w order).ofNode i ∧
            w.MetFirst i ((MergePoints.ofOrder w order).ofNode i) ∧
            ∀ m, w.MetFirst i m → m = (MergePoints.ofOrder w order).ofNode i) ∧
        ∀ cs, (∀ x, x ∈ cs ↔ x ∈ MergePoints.common table w.size w.roots) →
          (⟨order, w.size, table⟩ : MergePoints).nearest cs =
            (MergePoints.ofOrder w order).ofAll w.roots ∧
          w.MeetsRoots order ((MergePoints.ofOrder w order).ofAll w.roots) ∧
          ∀ r, w.roots = [r] → (MergePoints.ofOrder w order).ofAll w.roots = r := by
  have hw := h.sound
  refine ⟨List.range w.size, hw.topologicalOrder_eq, fun table htable => ⟨fun i hi => ?_, ?_⟩⟩
  · have hentry : ∀ x, x ∈ MergePoints.entry table i ↔
        Through w.Flow (.node x) (.node i) w.sink :=
      fun x => (htable.mem_entry_iff i x).trans (hw.mem_entry_iff (Nat.le_of_lt hi))
    refine ⟨hentry, fun cs hcs => ⟨hw.nearest_eq_mergeOf (a := .node i) hi fun x => ?_,
      hw.metFirst_mergeOf hi, fun m hm => hw.metFirst_unique hi (hw.metFirst_mergeOf hi) hm⟩⟩
    rw [hcs, hentry, and_comm, ne_eq, ne_eq, Place.node.injEq]
  · intro cs hcs
    refine ⟨hw.nearest_eq_mergeOf (a := .source) (Nat.zero_le _) fun x => ?_,
      hw.meetsRoots_mergeOf, fun r hr => hw.mergeOf_eq_of_next (a := .source) (Nat.zero_le _) hr⟩
    have hroots : x ∈ cs ↔ Through w.Flow (.node x) .source w.sink :=
      ((hcs x).trans (htable.mem_common_iff w.roots x)).trans hw.mem_common_roots_iff
    rw [hroots]
    simp

/-- Three nodes lie on all paths from the first one, and the sink. -/
theorem nightly_merge_points :
    nightly.topologicalOrder = .ok [0, 1, 2, 3, 4, 5] ∧
      nightly.mergePoints.nearest [6, 5, 3] = 3 ∧ nightly.MetFirst 0 3 ∧
      nightly.MeetsRoots [0, 1, 2, 3, 4, 5] 0 := by
  have horder : nightly.topologicalOrder = .ok [0, 1, 2, 3, 4, 5] := rfl
  obtain ⟨order, ho, hpoints⟩ := nightly_built.merge_points
  obtain rfl : [0, 1, 2, 3, 4, 5] = order := Except.ok.inj (horder.symm.trans ho)
  obtain ⟨hnodes, hroots⟩ := hpoints _ (MergePoints.fills_tableOf _ _ _)
  have hset : MergePoints.entry nightly.mergePoints.table 0 = [0, 3, 5, 6] := rfl
  obtain ⟨-, hnode⟩ := hnodes 0 (by decide)
  have hcs : ∀ x : Nat, x ∈ [6, 5, 3] ↔
      x ∈ MergePoints.entry nightly.mergePoints.table 0 ∧ x ≠ 0 := by
    rw [hset]
    grind
  obtain ⟨hnearest, hmet, -⟩ := hnode [6, 5, 3] hcs
  obtain ⟨-, hmeets, -⟩ := hroots _ fun _ => Iff.rfl
  exact ⟨horder, hnearest, hmet, hmeets⟩

end Workflow
end BatchFlow

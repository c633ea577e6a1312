import BatchFlow.Proofs.Workflow.Flow
import BatchFlow.Workflow.MergePoints

/-!
# Merge points are immediate post-dominators

The table that is filled from the end of the order holds, for each node, what every path from the
node to the sink passes. Of these places the one that comes first in the order is the immediate
post-dominator, because places on every path are ordered along the paths.
-/

namespace BatchFlow
namespace MergePoints

theorem entry_cons_self {i : Nat} {l : List NodeId} {table : List (NodeId × List NodeId)} :
    entry ((i, l) :: table) i = l := by simp [entry]

theorem entry_cons_of_ne {i j : Nat} {l : List NodeId} {table : List (NodeId × List NodeId)}
    (h : i ≠ j) : entry ((j, l) :: table) i = entry table i := by
  have : (i == j) = false := beq_false_of_ne h
  simp [entry, List.lookup_cons, this]

theorem mem_common_iff {table : List (NodeId × List NodeId)} {sink x : Nat} {ids : List NodeId} :
    x ∈ common table sink ids ↔ (ids = [] → x = sink) ∧ ∀ c ∈ ids, x ∈ entry table c := by
  cases ids with
  | nil => simp [common]
  | cons first rest => simp [common, List.mem_filter]

/-- The candidate of least rank, where the sink outranks all. -/
theorem nearest_spec (m : MergePoints) (cs : List NodeId) :
    (m.nearest cs = m.sink ∨ m.nearest cs ∈ cs) ∧
      m.rank (m.nearest cs) ≤ m.rank m.sink ∧ ∀ c ∈ cs, m.rank (m.nearest cs) ≤ m.rank c := by
  have key : ∀ (cs : List NodeId) (b : NodeId),
      let r := cs.foldl (fun best c => if m.rank c < m.rank best then c else best) b
      (r = b ∨ r ∈ cs) ∧ m.rank r ≤ m.rank b ∧ ∀ c ∈ cs, m.rank r ≤ m.rank c := by
    intro cs
    induction cs with
    | nil => simp
    | cons c rest ih =>
      intro b
      obtain ⟨hmem, hle, hall⟩ := ih (if m.rank c < m.rank b then c else b)
      simp only [List.foldl_cons, List.mem_cons, forall_eq_or_imp]
      by_cases hlt : m.rank c < m.rank b
      · simp only [hlt, if_true] at hmem hle hall ⊢
        exact ⟨.inr hmem, by omega, hle, hall⟩
      · simp only [hlt, if_false] at hmem hle hall ⊢
        exact ⟨hmem.imp_right .inr, hle, by omega, hall⟩
  exact key cs m.sink

end MergePoints

namespace Workflow

/-- The merge points of a workflow along the arena order. -/
def mergePoints (w : Workflow) : MergePoints := .ofOrder w (List.range w.size)

/-- Where the branches that leave a place come together. -/
def mergeOf (w : Workflow) : Place → NodeId
  | .source => w.mergePoints.ofAll w.roots
  | .node id => w.mergePoints.ofNode id

theorem through_sink_iff {w : Workflow} {a : Place} {x : Nat} (ha : a.rank ≤ w.size) :
    Through w.Flow (.node x) a w.sink ↔ .node x = a ∨ (w.next a = [] → x = w.size) ∧
      ∀ c ∈ w.next a, Through w.Flow (.node x) (.node c) w.sink := by
  have hne : a ≠ w.sink := by
    rintro rfl
    exact absurd ha (Nat.not_succ_le_self w.size)
  have hsink : Through w.Flow (.node x) w.sink w.sink ↔ x = w.size := by
    refine ⟨fun h => ?_, fun h => h ▸ through_first⟩
    simpa [sink] using h _ (.here w.sink)
  rw [through_iff_of_ne hne]
  refine or_congr_right ⟨fun h => ⟨fun hnil => hsink.mp (h _ (.leaf ha hnil)),
    fun c hc => h _ (.edge hc)⟩, fun ⟨hnil, hcons⟩ b hb => ?_⟩
  cases hb with
  | edge hv => exact hcons _ hv
  | leaf _ h => exact hsink.mpr (hnil h)

theorem rank_mergePoints {w : Workflow} {i : Nat} (hi : i ≤ w.size) :
    w.mergePoints.rank i = i := by
  have horder : w.mergePoints.rank i = (List.range w.size).idxOf i := rfl
  rw [horder]
  rcases Nat.lt_or_eq_of_le hi with hi | rfl
  · have hlen : i < (List.range w.size).length := by simpa using hi
    have := List.nodup_range.idxOf_getElem i hlen
    rwa [List.getElem_range] at this
  · have hnot : w.size ∉ List.range w.size := by simp
    rw [List.idxOf_of_notMem hnot, List.length_range]

namespace Sound

variable {w : Workflow} (hw : w.Sound)
include hw

/-- What the table holds for the nodes from `k` on, when it is filled that far. -/
theorem mem_entry_tableOf {k i x : Nat} (hki : k ≤ i) (hi : i ≤ w.size) :
    x ∈ MergePoints.entry
        (MergePoints.tableOf w.childrenOf w.size (List.range' k (w.size - k))) i ↔
      Through w.Flow (.node x) (.node i) w.sink := by
  obtain ⟨d, hd⟩ : ∃ d, d = w.size - k := ⟨_, rfl⟩
  induction d generalizing k i x with
  | zero =>
    have hik : i = w.size := by omega
    subst hik
    simp only [← hd, List.range'_zero, MergePoints.tableOf, List.foldr_nil,
      MergePoints.entry_cons_self, List.mem_singleton]
    refine ⟨fun h => h ▸ through_first, fun h => ?_⟩
    simpa [sink] using h _ (.here w.sink)
  | succ d ih =>
    have hsucc : w.size - (k + 1) = d := by omega
    -- The table from `k` on is the one from `k + 1` on with one more entry.
    have htable : MergePoints.tableOf w.childrenOf w.size (List.range' k (w.size - k)) =
        (k, k :: MergePoints.common
          (MergePoints.tableOf w.childrenOf w.size (List.range' (k + 1) (w.size - (k + 1))))
          w.size (w.childrenOf k)) ::
          MergePoints.tableOf w.childrenOf w.size (List.range' (k + 1) (w.size - (k + 1))) := by
      rw [← hd, hsucc, List.range'_succ]
      rfl
    rw [htable]
    by_cases hik : i = k
    · subst hik
      rw [MergePoints.entry_cons_self, List.mem_cons,
        through_sink_iff (a := .node i) (by simp only [Place.rank]; omega), Place.node.injEq]
      rw [MergePoints.mem_common_iff]
      refine or_congr_right (and_congr_right fun _ => ?_)
      refine forall_congr' fun c => forall_congr' fun hc => ?_
      have := hw.lt_of_mem_childrenOf hc
      exact ih this.1 (Nat.le_of_lt this.2) (by omega)
    · rw [MergePoints.entry_cons_of_ne hik]
      exact ih (by omega) hi (by omega)

theorem mem_entry_iff {i x : Nat} (hi : i ≤ w.size) :
    x ∈ MergePoints.entry w.mergePoints.table i ↔ Through w.Flow (.node x) (.node i) w.sink := by
  have := hw.mem_entry_tableOf (k := 0) (x := x) (Nat.zero_le i) hi
  rwa [Nat.sub_zero, ← List.range_eq_range'] at this

/-- What competes for the merge point of a place. -/
theorem mergeOf_spec {a : Place} (ha : a.rank ≤ w.size) :
    ∃ cs : List Nat, w.mergeOf a = w.mergePoints.nearest cs ∧
      ∀ x : Nat, x ∈ cs ↔ .node x ≠ a ∧ Through w.Flow (.node x) a w.sink := by
  cases a with
  | source =>
    refine ⟨MergePoints.common w.mergePoints.table w.size w.roots, rfl, fun x => ?_⟩
    have hne : Place.node x ≠ .source := fun h => by cases h
    rw [through_sink_iff ha, MergePoints.mem_common_iff]
    simp only [hne, ne_eq, not_false_eq_true, true_and, false_or]
    refine and_congr_right fun _ => forall_congr' fun c => forall_congr' fun hc => ?_
    have hlt : c < w.size := (hw.of_mem_next (a := .source) hc).2
    exact hw.mem_entry_iff (Nat.le_of_lt hlt)
  | node i =>
    have hi : i ≤ w.size := Nat.le_of_lt ha
    refine ⟨(MergePoints.entry w.mergePoints.table i).filter (· ≠ i), rfl, fun x => ?_⟩
    rw [List.mem_filter, hw.mem_entry_iff hi, and_comm]
    simp

/-- The branches of a place come together at its immediate post-dominator. -/
theorem immediatePostDominator_mergeOf {a : Place} (ha : a.rank ≤ w.size) :
    ImmediatePostDominator w.Flow w.sink (.node (w.mergeOf a)) a := by
  obtain ⟨cs, hm, hcs⟩ := hw.mergeOf_spec ha
  obtain ⟨hmem, -, hall⟩ := w.mergePoints.nearest_spec cs
  have hleads : Leads w.Flow a w.sink := hw.leads_sink (Nat.le_succ_of_le ha)
  have hsink : w.size ∈ cs := by
    refine (hcs w.size).mpr ⟨?_, through_last⟩
    rintro rfl
    exact absurd ha (Nat.not_succ_le_self w.size)
  have hmcs : w.mergeOf a ∈ cs := by
    rw [hm]
    rcases hmem with h | h
    · rw [h]
      exact hsink
    · exact h
  have hle : ∀ x : Nat, x ∈ cs → x ≤ w.size := by
    intro x hx
    have hxs := ((hcs x).mp hx).2.leads_right hleads
    exact Nat.le_of_succ_le_succ (hw.ranked.le hxs)
  have hmin : ∀ x : Nat, x ∈ cs → w.mergeOf a ≤ x := by
    intro x hx
    have := hall x hx
    rw [← hm, rank_mergePoints (hle _ hmcs), rank_mergePoints (hle x hx)] at this
    exact this
  obtain ⟨hne, hpass⟩ := (hcs _).mp hmcs
  refine ⟨hne, hpass, fun y hya hy => ?_⟩
  cases y with
  | source =>
    have := hw.ranked.eq_or_lt (hy.leads_left hleads)
    simp [Ne.symm hya, Place.rank] at this
  | node x =>
    have hmx := hmin x ((hcs x).mpr ⟨hya, hy⟩)
    have hlead := hw.ranked.leads_of_through hleads hpass hy (Nat.succ_le_succ hmx)
    rcases hy.ahead_or_behind (hpass.leads_left hleads) with h | h
    · rw [hw.ranked.antisymm hlead h]
      exact through_first
    · exact h

end Sound
end Workflow
end BatchFlow

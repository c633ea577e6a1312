import BatchFlow.Proofs.Workflow.Built

/-!
# The order of a built workflow

Ids grow along the edges of a built workflow, so the arena order is a topological one, and it is the
one that the placing of nodes finds: before each step the first `k` nodes are placed, each other
node waits for its parents from `k` on, and the node `k` is the first that is ready.
-/

namespace BatchFlow
namespace Workflow

section Edges

variable {w : Workflow} (hw : w.Sound)
include hw

theorem Sound.mem_childrenOf_iff {u v : Nat} :
    v ∈ w.childrenOf u ↔ ∃ n, w.node? v = some n ∧ u ∈ n.parents := by
  unfold childrenOf
  constructor
  · cases hu : w.node? u with
    | none => simp
    | some m =>
      intro hv
      obtain ⟨c, hv⟩ := Node.mem_children.mp hv
      have hle : v ≤ w.dag.size := hw.dag.child_le u m hu v (Node.mem_children.mpr ⟨c, hv⟩)
      have hne : v ≠ w.dag.size := by
        rintro rfl
        exact List.not_mem_nil ((hw.dag.awaited_iff u m c hu).mp hv)
      obtain ⟨n, hn⟩ := Dag.get?_eq_some_iff.mpr (Nat.lt_of_le_of_ne hle hne)
      exact ⟨n, hn, Node.mem_parents.mpr ⟨c, (hw.dag.edge_iff u v m n c hu hn).mp hv⟩⟩
  · rintro ⟨n, hn, hp⟩
    have hlt : u < v := hw.dag.parent_lt v n hn u hp
    obtain ⟨m, hm⟩ := Dag.get?_eq_some_iff.mpr (Nat.lt_trans hlt (Dag.lt_size hn))
    obtain ⟨c, hp⟩ := Node.mem_parents.mp hp
    have hm' : w.node? u = some m := hm
    rw [hm']
    exact Node.mem_children.mpr ⟨c, (hw.dag.edge_iff u v m n c hm hn).mpr hp⟩

theorem Sound.lt_of_mem_childrenOf {u v : Nat} (h : v ∈ w.childrenOf u) :
    u < v ∧ v < w.size := by
  obtain ⟨n, hn, hp⟩ := hw.mem_childrenOf_iff.mp h
  exact ⟨hw.dag.parent_lt v n hn u hp, Dag.lt_size hn⟩

theorem Sound.childrenOf_nodup (u : Nat) : (w.childrenOf u).Nodup := by
  unfold childrenOf
  cases hu : w.node? u with
  | none => exact List.nodup_nil
  | some m => exact (hw.dag.tidy u m hu).nodup

theorem Sound.mem_roots_iff {r : Nat} :
    r ∈ w.roots ↔ ∃ n, w.node? r = some n ∧ n.parents = [] := by
  rw [hw.roots_eq, List.mem_map]
  constructor
  · rintro ⟨n, hn, rfl⟩
    obtain ⟨hmem, hp⟩ := List.mem_filter.mp hn
    obtain ⟨i, hi⟩ := Dag.mem_nodes_iff.mp hmem
    rw [hw.dag.id_eq i n hi]
    exact ⟨n, hi, List.isEmpty_iff.mp hp⟩
  · rintro ⟨n, hn, hp⟩
    refine ⟨n, List.mem_filter.mpr ⟨Dag.mem_nodes_iff.mpr ⟨r, hn⟩, ?_⟩, hw.dag.id_eq r n hn⟩
    exact List.isEmpty_iff.mpr hp

theorem Sound.ids_eq : w.nodes.map Node.id = List.range w.size := hw.dag.ids_eq

theorem Sound.roots_sorted : w.roots.Pairwise (· < ·) := by
  have hids : (w.nodes.map Node.id).Pairwise (· < ·) := hw.ids_eq ▸ List.pairwise_lt_range
  rw [hw.roots_eq]
  exact hids.sublist (List.filter_sublist.map _)

theorem Sound.roots_nodup : w.roots.Nodup :=
  hw.roots_sorted.imp Nat.ne_of_lt

end Edges

namespace Placement

theorem mem_insertSorted {x i : Nat} {l : List Nat} : i ∈ insertSorted x l ↔ i = x ∨ i ∈ l := by
  induction l with
  | nil => simp [insertSorted]
  | cons y rest ih =>
    unfold insertSorted
    by_cases h : x ≤ y
    · simp [h]
    · simp only [h, if_false, List.mem_cons, ih]
      exact or_left_comm

theorem insertSorted_sorted {x : Nat} {l : List Nat} (h : l.Pairwise (· < ·)) (hx : x ∉ l) :
    List.Pairwise (fun a b : Nat => a < b) (insertSorted x l) := by
  induction l with
  | nil => simp [insertSorted]
  | cons y rest ih =>
    rw [List.pairwise_cons] at h
    have hxy : x ≠ y := fun he => hx (he ▸ List.mem_cons_self)
    unfold insertSorted
    by_cases hle : x ≤ y
    · simp only [hle, if_true, List.pairwise_cons, List.mem_cons]
      refine ⟨?_, h⟩
      rintro z (rfl | hz)
      · omega
      · have := h.1 z hz
        omega
    · simp only [hle, if_false, List.pairwise_cons, mem_insertSorted]
      refine ⟨?_, ih h.2 fun hm => hx (List.mem_cons_of_mem _ hm)⟩
      rintro z (rfl | hz)
      · omega
      · exact h.1 z hz

theorem release_eq (p : Placement) (c : Nat) :
    p.release c = { p with
      waiting := p.waiting.modify c (· - 1)
      ready := if p.waiting[c]? = some 1 then insertSorted c p.ready else p.ready } := by
  have h1 : (p.waiting.modify c (· - 1))[c]? = some 0 ↔ p.waiting[c]? = some 1 := by
    rw [List.getElem?_modify]
    cases p.waiting[c]? with
    | none => simp
    | some x => simp; omega
  unfold release
  simp only [h1]
  split <;> rfl

theorem getElem?_waiting_release (p : Placement) (c i : Nat) :
    (p.release c).waiting[i]? = if i = c then p.waiting[i]?.map (· - 1) else p.waiting[i]? := by
  rw [release_eq, List.getElem?_modify]
  by_cases hi : i = c
  · subst hi
    cases p.waiting[i]? <;> simp
  · cases p.waiting[i]? <;> simp [hi, Ne.symm hi]

theorem mem_ready_release (p : Placement) (c i : Nat) :
    i ∈ (p.release c).ready ↔ i ∈ p.ready ∨ (i = c ∧ p.waiting[i]? = some 1) := by
  rw [release_eq]
  by_cases h : p.waiting[c]? = some 1
  · simp only [h, if_true, mem_insertSorted]
    constructor
    · rintro (rfl | hi)
      · exact .inr ⟨rfl, h⟩
      · exact .inl hi
    · rintro (hi | ⟨rfl, -⟩)
      · exact .inr hi
      · exact .inl rfl
  · simp only [h, if_false]
    refine ⟨.inl, fun hi => hi.resolve_right ?_⟩
    rintro ⟨rfl, h'⟩
    exact h h'

theorem release_sorted {p : Placement} {c : Nat} (hsorted : p.ready.Pairwise (· < ·))
    (hc : c ∉ p.ready) : List.Pairwise (fun a b : Nat => a < b) (p.release c).ready := by
  rw [release_eq]
  dsimp only
  split
  · exact insertSorted_sorted hsorted hc
  · exact hsorted

/-- What releases do: each child waits for one parent less, and is ready when none is left. -/
theorem foldl_release {cs : List Nat} {p : Placement} (hnodup : cs.Nodup)
    (hnew : ∀ c ∈ cs, c ∉ p.ready) (hsorted : p.ready.Pairwise (· < ·)) :
    (cs.foldl release p).placed = p.placed ∧
      (cs.foldl release p).waiting.length = p.waiting.length ∧
      (∀ i : Nat, (cs.foldl release p).waiting[i]? =
        if i ∈ cs then p.waiting[i]?.map (· - 1) else p.waiting[i]?) ∧
      (cs.foldl release p).ready.Pairwise (· < ·) ∧
      (∀ i : Nat, i ∈ (cs.foldl release p).ready ↔
        i ∈ p.ready ∨ (i ∈ cs ∧ p.waiting[i]? = some 1)) := by
  induction cs generalizing p with
  | nil => simp [hsorted]
  | cons c rest ih =>
    rw [List.nodup_cons] at hnodup
    have hnew' : ∀ x ∈ rest, x ∉ (p.release c).ready := by
      intro x hx hr
      rcases (mem_ready_release p c x).mp hr with hr | ⟨rfl, -⟩
      · exact hnew x (List.mem_cons_of_mem _ hx) hr
      · exact hnodup.1 hx
    obtain ⟨hplaced, hlen, hwait, hsort, hready⟩ :=
      ih hnodup.2 hnew' (release_sorted hsorted (hnew c List.mem_cons_self))
    rw [List.foldl_cons]
    refine ⟨hplaced.trans ?_, hlen.trans ?_, fun i => ?_, hsort, fun i => ?_⟩
    · rw [release_eq]
    · rw [release_eq, List.length_modify]
    · rw [hwait i, getElem?_waiting_release]
      by_cases hi : i = c
      · subst hi
        simp [hnodup.1]
      · simp [hi]
    · rw [hready i, mem_ready_release, getElem?_waiting_release]
      by_cases hi : i = c
      · subst hi
        simp [hnodup.1]
      · simp [hi]

/-- The state of the placing when the first `k` nodes are placed. -/
structure At (w : Workflow) (k : Nat) (p : Placement) : Prop where
  placed : p.placed = List.range k
  length : p.waiting.length = w.size
  waiting : ∀ (i : Nat) n, w.node? i = some n →
    p.waiting[i]? = some ((n.parents.countP (k ≤ ·) : Nat) : Int)
  sorted : p.ready.Pairwise (· < ·)
  mem_ready : ∀ i : Nat, i ∈ p.ready ↔
    ∃ n, w.node? i = some n ∧ k ≤ i ∧ ∀ q : Nat, q ∈ n.parents → q < k

theorem countP_le_succ {l : List Nat} (h : l.Nodup) (k : Nat) :
    l.countP (k ≤ ·) = l.countP (k + 1 ≤ ·) + if k ∈ l then 1 else 0 := by
  induction l with
  | nil => simp
  | cons x rest ih =>
    rw [List.nodup_cons] at h
    rw [List.countP_cons, List.countP_cons, ih h.2]
    by_cases hx : k = x
    · subst hx
      simp [h.1]
    · have hxk : (decide (k ≤ x) = true) ↔ (decide (k + 1 ≤ x) = true) := by
        simp only [decide_eq_true_eq]
        omega
      simp only [hxk, List.mem_cons, hx, false_or]
      omega

/-- A list without repetitions that holds `k` holds nothing greater exactly if `k` is the only one
from `k` on. -/
theorem countP_eq_one_iff {l : List Nat} (h : l.Nodup) {k : Nat} (hk : k ∈ l) :
    l.countP (k ≤ ·) = 1 ↔ ∀ q ∈ l, q < k + 1 := by
  have hsucc := countP_le_succ h k
  rw [if_pos hk] at hsucc
  have hzero : l.countP (k ≤ ·) = 1 ↔ l.countP (k + 1 ≤ ·) = 0 := by omega
  rw [hzero, List.countP_eq_zero]
  refine forall_congr' fun q => forall_congr' fun _ => ?_
  rw [decide_eq_true_eq]
  omega

variable {w : Workflow}

theorem At.start : At w 0 w.unplaced := by
  have hwait : ∀ (i : Nat) n, w.node? i = some n →
      w.unplaced.waiting[i]? = some (n.parents.length : Int) := by
    intro i n hn
    have : w.nodes[i]? = some n := hn
    simp [unplaced, this]
  refine ⟨rfl, by simp [unplaced, nodes, size, Dag.size], ?_, ?_, ?_⟩
  · intro i n hn
    simp [hwait i n hn, List.countP_eq_length.mpr]
  · exact List.pairwise_lt_range.filter _
  · intro i
    have hready : i ∈ w.unplaced.ready ↔ i < w.size ∧ w.unplaced.waiting[i]? = some 0 := by
      simp [unplaced]
    rw [hready]
    constructor
    · rintro ⟨hi, h0⟩
      obtain ⟨n, hn⟩ := Dag.get?_eq_some_iff.mpr hi
      rw [hwait i n hn] at h0
      have hnil : n.parents = [] := by simpa using h0
      exact ⟨n, hn, Nat.zero_le _, fun q hq => by simp [hnil] at hq⟩
    · rintro ⟨n, hn, -, hq⟩
      have hnil : n.parents = [] := by
        rw [List.eq_nil_iff_forall_not_mem]
        exact fun q hmem => absurd (hq q hmem) (Nat.not_lt_zero q)
      exact ⟨Dag.lt_size hn, by rw [hwait i n hn, hnil]; rfl⟩

variable (hw : w.Sound)
include hw

theorem mem_childrenOf_iff_of_node {k i : Nat} {n : Node} (hn : w.node? i = some n) :
    i ∈ w.childrenOf k ↔ k ∈ n.parents := by
  refine hw.mem_childrenOf_iff.trans ⟨?_, fun hk => ⟨n, hn, hk⟩⟩
  rintro ⟨m, hm, hk⟩
  rw [Option.some.inj (hn.symm.trans hm)]
  exact hk

/-- The node `k` is ready, and no smaller one is. -/
theorem At.exists_rest {k : Nat} {p : Placement} (h : At w k p) (hk : k < w.size) :
    ∃ rest, p.ready = k :: rest ∧ rest.Pairwise (· < ·) ∧
      ∀ i : Nat, i ∈ rest ↔ i ∈ p.ready ∧ k < i := by
  obtain ⟨n, hn⟩ := Dag.get?_eq_some_iff.mpr hk
  have hmem : k ∈ p.ready := (h.mem_ready k).mpr ⟨n, hn, Nat.le_refl k, hw.dag.parent_lt k n hn⟩
  have hsorted := h.sorted
  cases hready : p.ready with
  | nil => simp [hready] at hmem
  | cons x rest =>
    rw [hready, List.pairwise_cons] at hsorted
    rw [hready] at hmem
    have hx : x = k := by
      obtain ⟨_, -, hkx, -⟩ := (h.mem_ready x).mp (hready ▸ List.mem_cons_self)
      rcases List.mem_cons.mp hmem with rfl | hm
      · rfl
      · exact absurd hkx (Nat.not_le_of_lt (hsorted.1 k hm))
    subst hx
    refine ⟨rest, rfl, hsorted.2, fun i => ?_⟩
    rw [List.mem_cons]
    refine ⟨fun hi => ⟨.inr hi, hsorted.1 i hi⟩, ?_⟩
    rintro ⟨rfl | hi, hlt⟩
    · exact absurd hlt (Nat.lt_irrefl i)
    · exact hi

/-- The nodes that are ready when `k` is placed: those that were ready before, and the children of
`k` that waited for nothing else. -/
theorem At.mem_ready_succ {k : Nat} {p : Placement} (h : At w k p) (i : Nat) :
    (i ∈ p.ready ∧ k < i ∨ i ∈ w.childrenOf k ∧ p.waiting[i]? = some 1) ↔
      ∃ n, w.node? i = some n ∧ k + 1 ≤ i ∧ ∀ q : Nat, q ∈ n.parents → q < k + 1 := by
  have hone : ∀ n, w.node? i = some n → k ∈ n.parents →
      (p.waiting[i]? = some 1 ↔ ∀ q : Nat, q ∈ n.parents → q < k + 1) := by
    intro n hn hkn
    rw [h.waiting i n hn, ← countP_eq_one_iff (hw.dag.parents_nodup i n hn) hkn, Option.some_inj]
    omega
  constructor
  · rintro (⟨hi, hlt⟩ | ⟨hi, hwait⟩)
    · obtain ⟨n, hn, -, hq⟩ := (h.mem_ready i).mp hi
      exact ⟨n, hn, hlt, fun q hmem => Nat.lt_succ_of_lt (hq q hmem)⟩
    · obtain ⟨n, hn, hkn⟩ := hw.mem_childrenOf_iff.mp hi
      exact ⟨n, hn, (hw.lt_of_mem_childrenOf hi).1, (hone n hn hkn).mp hwait⟩
  · rintro ⟨n, hn, hlt, hq⟩
    by_cases hkn : k ∈ n.parents
    · exact .inr ⟨(mem_childrenOf_iff_of_node hw hn).mpr hkn, (hone n hn hkn).mpr hq⟩
    · refine .inl ⟨(h.mem_ready i).mpr ⟨n, hn, Nat.le_of_succ_le hlt, fun q hmem => ?_⟩, hlt⟩
      have hle := hq q hmem
      have hne : q ≠ k := fun he => hkn (he ▸ hmem)
      omega

theorem At.step {k : Nat} {p : Placement} (h : At w k p) (hk : k < w.size) :
    ∃ p', p.step w.childrenOf = some p' ∧ At w (k + 1) p' := by
  obtain ⟨rest, hrest, hsorted, hmem_rest⟩ := h.exists_rest hw hk
  let q : Placement := { p with ready := rest, placed := p.placed ++ [k] }
  have hnew : ∀ c ∈ w.childrenOf k, c ∉ q.ready := by
    intro c hc hr
    obtain ⟨n, hn, -, hlt⟩ := (h.mem_ready c).mp ((hmem_rest c).mp hr).1
    exact Nat.lt_irrefl k (hlt k ((mem_childrenOf_iff_of_node hw hn).mp hc))
  obtain ⟨hplaced, hlen, hwait, hsort, hready⟩ :=
    foldl_release (hw.childrenOf_nodup k) hnew hsorted
  refine ⟨(w.childrenOf k).foldl release q, by simp [Placement.step, hrest, q], ?_⟩
  constructor
  case placed => rw [hplaced, List.range_succ, ← h.placed]
  case length => exact hlen.trans h.length
  case waiting =>
    intro i n hn
    have hold : q.waiting[i]? = _ := h.waiting i n hn
    rw [hwait i, hold]
    have hsucc := countP_le_succ (hw.dag.parents_nodup i n hn) k
    by_cases hc : i ∈ w.childrenOf k
    · rw [if_pos ((mem_childrenOf_iff_of_node hw hn).mp hc)] at hsucc
      rw [if_pos hc, Option.map_some, hsucc]
      congr 1
      omega
    · rw [if_neg (mt (mem_childrenOf_iff_of_node hw hn).mpr hc), Nat.add_zero] at hsucc
      rw [if_neg hc, hsucc]
  case sorted => exact hsort
  case mem_ready =>
    intro i
    rw [hready i, ← h.mem_ready_succ hw i]
    exact or_congr_left (hmem_rest i)

theorem At.run {bound k : Nat} {p : Placement} (h : At w k p) (hb : k + bound = w.size) :
    At w w.size (Placement.run w.childrenOf bound p) := by
  induction bound generalizing k p with
  | zero => exact hb ▸ h
  | succ bound ih =>
    obtain ⟨p', hp', h'⟩ := h.step hw (by omega)
    rw [Placement.run, hp']
    exact ih h' (by omega)

end Placement

/-- The nodes of a built workflow are placed in arena order. -/
theorem Sound.topologicalOrder_eq {w : Workflow} (hw : w.Sound) :
    w.topologicalOrder = .ok (List.range w.size) := by
  have hrun : 0 + w.size = w.size := Nat.zero_add _
  have h := Placement.At.start.run hw hrun
  unfold topologicalOrder
  simp [h.placed]

end Workflow
end BatchFlow

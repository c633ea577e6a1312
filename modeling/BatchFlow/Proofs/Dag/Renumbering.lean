import BatchFlow.Proofs.Dag.Edges
import Mathlib.Data.List.Nodup

/-!
# Renumbered copies

A part of a dag is copied by giving its nodes new ids. When the new ids follow the order of the old
ones, the copy of a sound dag is sound, whichever edges are dropped on the way: an edge is dropped
at both ends or at none.
-/

namespace BatchFlow

/-- New ids in the order of the old ones. -/
def Ordered (place : Nat → Option Nat) : Prop :=
  ∀ a b i j, place a = some i → place b = some j → a < b → i < j

theorem Ordered.inj {place : Nat → Option Nat} (h : Ordered place) {a b i : Nat}
    (ha : place a = some i) (hb : place b = some i) : a = b := by
  rcases Nat.lt_trichotomy a b with hlt | rfl | hlt
  · exact absurd (h a b i i ha hb hlt) (Nat.lt_irrefl i)
  · rfl
  · exact absurd (h b a i i hb ha hlt) (Nat.lt_irrefl i)

theorem ordered_idxOf? {ids : List Nat} (h : ids.Pairwise (· < ·)) : Ordered ids.idxOf? := by
  intro a b i j ha hb hlt
  obtain ⟨hi, rfl, -⟩ := List.idxOf?_eq_some_iff.mp ha
  obtain ⟨hj, rfl, -⟩ := List.idxOf?_eq_some_iff.mp hb
  rw [List.pairwise_iff_getElem] at h
  rcases Nat.lt_trichotomy i j with hij | rfl | hij
  · exact hij
  · omega
  · have := h j i hj hi hij
    omega

theorem idxOf?_eq_some_of_nodup {ids : List Nat} (h : ids.Nodup) {a i : Nat} :
    ids.idxOf? a = some i ↔ ids[i]? = some a := by
  rw [List.idxOf?_eq_some_iff, List.getElem?_eq_some_iff]
  refine ⟨fun ⟨hi, ha, _⟩ => ⟨hi, ha⟩, fun ⟨hi, ha⟩ => ⟨hi, ha, fun j hj hja => ?_⟩⟩
  have := h.getElem_inj_iff.mp (hja.trans ha.symm)
  omega

namespace Node

variable {place : Nat → Option Nat} {k : Nat} {n : Node}

theorem renumber_hasParent {q : Nat} {c : Option Condition} :
    (n.renumber place k).HasParent q c ↔ ∃ p, place p = some q ∧ n.HasParent p c := by
  cases c with
  | none => simp [HasParent, renumber, List.mem_filterMap, and_comm]
  | some c =>
    simp only [HasParent, renumber, List.mem_filterMap, Option.map_eq_some_iff, Branch.mk.injEq]
    constructor
    · rintro ⟨⟨p, c⟩, hp, _, hq, rfl, rfl⟩
      exact ⟨p, hq, hp⟩
    · rintro ⟨p, hq, hp⟩
      exact ⟨⟨p, c⟩, hp, q, hq, rfl, rfl⟩

theorem renumber_hasChild {q : Nat} {c : Option Condition} :
    (n.renumber place k).HasChild q c ↔ ∃ v, place v = some q ∧ n.HasChild v c := by
  cases c with
  | none => simp [HasChild, renumber, List.mem_filterMap, and_comm]
  | some c =>
    simp only [HasChild, renumber, List.mem_filterMap, Option.map_eq_some_iff, Branch.mk.injEq]
    constructor
    · rintro ⟨⟨v, c⟩, hv, _, hq, rfl, rfl⟩
      exact ⟨v, hq, hv⟩
    · rintro ⟨v, hq, hv⟩
      exact ⟨⟨v, c⟩, hv, q, hq, rfl, rfl⟩

theorem map_node_renumber (bs : List Branch) :
    ((bs.filterMap fun b => (place b.node).map fun i => (⟨i, b.condition⟩ : Branch)).map
      Branch.node) = (bs.map Branch.node).filterMap place := by
  rw [List.map_filterMap, List.filterMap_map]
  congr 1
  funext b
  cases h : place b.node <;> simp [h]

theorem parents_renumber : (n.renumber place k).parents = n.parents.filterMap place := by
  simp only [parents, renumber, map_node_renumber, List.filterMap_append]

theorem Tidy.renumber (h : n.Tidy) (ho : Ordered place) : (n.renumber place k).Tidy := by
  have hsorted : ∀ l : List Nat, l.Pairwise (· < ·) → (l.filterMap place).Pairwise (· < ·) :=
    fun l hl => hl.filterMap place fun a b hab i hi j hj => ho a b i j hi hj hab
  constructor
  case plain_sorted =>
    exact hsorted _ h.plain_sorted
  case conditional_sorted =>
    simp only [Node.renumber, map_node_renumber]
    exact hsorted _ h.conditional_sorted
  case unmixed =>
    rcases h.unmixed with h | h
    · exact .inl (by simp [Node.renumber, h])
    · exact .inr (by simp [Node.renumber, h])
  case one_default =>
    refine Nat.le_trans ?_ h.one_default
    simp only [Node.renumber]
    rw [List.countP_filterMap]
    refine List.countP_mono_left fun b _ hb => ?_
    cases hp : place b.node with
    | none => simp [hp] at hb
    | some i => simpa [hp] using hb

end Node

namespace Dag

variable {d : Dag} {ids : List Nat}

theorem getElem?_filterMap_of_isSome {α β : Type} {f : α → Option β} {l : List α}
    (h : ∀ x ∈ l, (f x).isSome) (i : Nat) : (l.filterMap f)[i]? = l[i]?.bind f := by
  induction l generalizing i with
  | nil => simp
  | cons x rest ih =>
    obtain ⟨y, hy⟩ := Option.isSome_iff_exists.mp (h x List.mem_cons_self)
    rw [List.filterMap_cons_some hy]
    cases i with
    | zero => simp [hy]
    | succ i => simpa using ih (fun x hx => h x (List.mem_cons_of_mem _ hx)) i

theorem get?_subset (hlt : ∀ a ∈ ids, a < d.size) {k : Nat} {m : Node} :
    (d.subset ids).get? k = some m ↔
      ∃ a n, ids[k]? = some a ∧ d.get? a = some n ∧ m = n.renumber ids.idxOf? k := by
  have hsome : ∀ x ∈ ids.zipIdx, ((d.get? x.1).map (Node.renumber ids.idxOf? x.2)).isSome := by
    intro x hx
    obtain ⟨n, hn⟩ := get?_eq_some_iff.mpr (hlt x.1 (List.fst_mem_of_mem_zipIdx hx))
    simp [hn]
  unfold subset
  rw [get?, getElem?_filterMap_of_isSome hsome, List.getElem?_zipIdx]
  cases ids[k]? with
  | none => simp
  | some a => simp [@eq_comm _ m]

theorem size_subset (hlt : ∀ a ∈ ids, a < d.size) : (d.subset ids).size = ids.length := by
  refine Nat.le_antisymm ?_ ?_
  · by_contra hgt
    obtain ⟨m, hm⟩ := get?_eq_some_iff.mpr (Nat.lt_of_not_le hgt)
    obtain ⟨a, _, ha, -⟩ := (get?_subset hlt).mp hm
    simp at ha
  · by_contra hgt
    have hk := Nat.lt_of_not_le hgt
    obtain ⟨n, hn⟩ := get?_eq_some_iff.mpr (hlt _ (List.getElem_mem hk))
    have := lt_size ((get?_subset hlt).mpr ⟨_, n, List.getElem?_eq_getElem hk, hn, rfl⟩)
    omega

/-- A part of a sound dag, copied in order, is sound. -/
theorem Sound.subset (h : d.Sound) (hsorted : ids.Pairwise (· < ·))
    (hlt : ∀ a ∈ ids, a < d.size) : (d.subset ids).Sound := by
  have ho := ordered_idxOf? hsorted
  have hnodup : ids.Nodup := hsorted.imp fun h => Nat.ne_of_lt h
  have hplace : ∀ {a i : Nat}, ids.idxOf? a = some i ↔ ids[i]? = some a :=
    idxOf?_eq_some_of_nodup hnodup
  have hmem : ∀ {q v : Nat}, ids.idxOf? v = some q → q < (d.subset ids).size := by
    intro q v hq
    rw [size_subset hlt]
    exact (List.getElem?_eq_some_iff.mp (hplace.mp hq)).1
  constructor
  case id_eq =>
    intro k m hm
    obtain ⟨a, n, -, -, rfl⟩ := (get?_subset hlt).mp hm
    rfl
  case tidy =>
    intro k m hm
    obtain ⟨a, n, -, hn, rfl⟩ := (get?_subset hlt).mp hm
    exact (h.tidy a n hn).renumber ho
  case parents_nodup =>
    intro k m hm
    obtain ⟨a, n, -, hn, rfl⟩ := (get?_subset hlt).mp hm
    rw [Node.parents_renumber]
    exact (h.parents_nodup a n hn).filterMap fun p q i hp hq => ho.inj hp hq
  case parent_lt =>
    intro k m hm q hq
    obtain ⟨a, n, ha, hn, rfl⟩ := (get?_subset hlt).mp hm
    rw [Node.parents_renumber, List.mem_filterMap] at hq
    obtain ⟨p, hp, hq⟩ := hq
    exact ho p a q k hq (hplace.mpr ha) (h.parent_lt a n hn p hp)
  case child_le =>
    intro k m hm q hq
    obtain ⟨a, n, -, hn, rfl⟩ := (get?_subset hlt).mp hm
    obtain ⟨c, hq⟩ := Node.mem_children.mp hq
    obtain ⟨v, hv, -⟩ := Node.renumber_hasChild.mp hq
    exact Nat.le_of_lt (hmem hv)
  case edge_iff =>
    intro i j m n c hm hn
    obtain ⟨a, m₀, ha, hm₀, rfl⟩ := (get?_subset hlt).mp hm
    obtain ⟨b, n₀, hb, hn₀, rfl⟩ := (get?_subset hlt).mp hn
    have hpa : ∀ p, ids.idxOf? p = some i ↔ p = a := fun p =>
      ⟨fun hp => ho.inj hp (hplace.mpr ha), fun hp => hp ▸ hplace.mpr ha⟩
    have hpb : ∀ p, ids.idxOf? p = some j ↔ p = b := fun p =>
      ⟨fun hp => ho.inj hp (hplace.mpr hb), fun hp => hp ▸ hplace.mpr hb⟩
    simp only [Node.renumber_hasChild, Node.renumber_hasParent, hpa, hpb, exists_eq_left]
    exact h.edge_iff a b m₀ n₀ c hm₀ hn₀
  case awaited_iff =>
    intro k m c hm
    obtain ⟨a, n, -, hn, rfl⟩ := (get?_subset hlt).mp hm
    refine iff_of_false (fun hv => ?_) List.not_mem_nil
    obtain ⟨v, hv, -⟩ := Node.renumber_hasChild.mp hv
    exact Nat.lt_irrefl _ (hmem hv)

end Dag
end BatchFlow

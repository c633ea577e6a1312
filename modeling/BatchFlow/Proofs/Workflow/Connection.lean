import BatchFlow.Proofs.Workflow.Coherent

/-!
# Connection

Nodes are connected when a chain of edges joins them, each edge taken in whichever direction.
`Dag.labels` decides it in one pass over the arena. Behind the pass stands what holds of the first
nodes: two of them carry one label exactly if edges among the first nodes join them. One node more
joins its parents to itself and to nothing else, which is what its fresh label records.
-/

namespace BatchFlow
namespace Dag

/-- A step along an edge, to a parent or to a child. -/
def Adjacent (d : Dag) (a b : NodeId) : Prop :=
  ∃ n, d.get? a = some n ∧ (b ∈ n.parents ∨ b ∈ n.children)

/-- A chain of edges joins the nodes. -/
def Connected (d : Dag) : NodeId → NodeId → Prop := Relation.ReflTransGen d.Adjacent

/-- The edges among the first nodes join the nodes. -/
def Joined (ns : List Node) : Nat → Nat → Prop :=
  Relation.EqvGen fun p c => ∃ n, ns[c]? = some n ∧ p ∈ n.parents

theorem Joined.append {ns : List Node} {a b : Nat} (h : Joined ns a b) (n : Node) :
    Joined (ns ++ [n]) a b := by
  refine Relation.EqvGen.mono ?_ a b h
  rintro p c ⟨m, hm, hp⟩
  exact ⟨m, (List.getElem?_append_left (List.getElem?_eq_some_iff.mp hm).1).trans hm, hp⟩

/-- What gives parents and children one value gives connected nodes one value. -/
theorem Joined.eq_of_edges {α : Type} {ns : List Node} {v : Nat → α} {a b : Nat}
    (h : Joined ns a b) (hv : ∀ c n, ns[c]? = some n → ∀ p ∈ n.parents, v p = v c) : v a = v b := by
  induction h with
  | rel p c hedge =>
    obtain ⟨n, hn, hp⟩ := hedge
    exact hv c n hn p hp
  | refl a => rfl
  | symm a b _ ih => exact ih.symm
  | trans a b c _ _ ih ih' => exact ih.trans ih'

/-! ## Labels -/

/-- The labels tell which of the first nodes are joined. Every label is one that has been given. -/
structure Labelled (ns : List Node) (labels : List Nat) : Prop where
  length_eq : labels.length = ns.length
  lt_length : ∀ l ∈ labels, l < labels.length
  eq_iff : ∀ a b, a < ns.length → b < ns.length → (labels[a]? = labels[b]? ↔ Joined ns a b)

section extendLabels

variable {labels : List Nat} {n : Node}

theorem length_extendLabels : (extendLabels labels n).length = labels.length + 1 := by
  simp [extendLabels]

theorem getElem?_extendLabels_length :
    (extendLabels labels n)[labels.length]? = some labels.length := by
  simp [extendLabels]

/-- A node keeps its label unless a parent of the new node has the same one. -/
theorem getElem?_extendLabels {a l : Nat} (hl : labels[a]? = some l) :
    (extendLabels labels n)[a]? =
      some (if ∃ p ∈ n.parents, labels[p]? = some l then labels.length else l) := by
  have ha : a < labels.length := (List.getElem?_eq_some_iff.mp hl).1
  unfold extendLabels
  rw [List.getElem?_map, List.getElem?_append_left ha, hl]
  simp [List.mem_filterMap]

theorem extendLabels_lt (h : ∀ l ∈ labels, l < labels.length) :
    ∀ l ∈ extendLabels labels n, l < (extendLabels labels n).length := by
  intro l hl
  rw [length_extendLabels]
  obtain ⟨l', hl', rfl⟩ := List.mem_map.mp hl
  rcases List.mem_append.mp hl' with hl' | hl'
  · have := h l' hl'
    split <;> omega
  · rw [List.mem_singleton.mp hl']
    split <;> omega

end extendLabels

namespace Labelled

variable {ns : List Node} {labels : List Nat} (h : Labelled ns labels) (n : Node)
include h

theorem exists_label {a : Nat} (ha : a < ns.length) : ∃ l, labels[a]? = some l :=
  ⟨_, List.getElem?_eq_getElem (h.length_eq ▸ ha)⟩

/-- The fresh label goes to the new node and to what one of its parents is joined with. -/
theorem joined_of_fresh {a : Nat} (ha : (extendLabels labels n)[a]? = some labels.length) :
    Joined (ns ++ [n]) a ns.length := by
  have hle : a < labels.length + 1 := by
    rw [← length_extendLabels (n := n)]
    exact (List.getElem?_eq_some_iff.mp ha).1
  rcases Nat.lt_or_eq_of_le (Nat.le_of_lt_succ hle) with hlt | heq
  · rw [h.length_eq] at hlt
    obtain ⟨l, hl⟩ := h.exists_label hlt
    rw [getElem?_extendLabels hl] at ha
    split at ha
    · rename_i hparent
      obtain ⟨p, hp, hpl⟩ := hparent
      have hplt : p < ns.length := h.length_eq ▸ (List.getElem?_eq_some_iff.mp hpl).1
      have hap : Joined ns a p := (h.eq_iff a p hlt hplt).mp (hl.trans hpl.symm)
      have hpn : Joined (ns ++ [n]) p ns.length :=
        .rel _ _ ⟨n, List.getElem?_concat_length, hp⟩
      exact (hap.append n).trans _ _ _ hpn
    · have hfresh := h.lt_length l (List.mem_of_getElem? hl)
      exact absurd (Option.some.inj ha) (Nat.ne_of_lt hfresh)
  · rw [heq, h.length_eq]
    exact .refl _

/-- Any other label is an old one. -/
theorem label_of_ne_fresh {a l : Nat} (ha : (extendLabels labels n)[a]? = some l)
    (hl : l ≠ labels.length) : a < ns.length ∧ labels[a]? = some l := by
  have hlt : a < labels.length := by
    have hle := (List.getElem?_eq_some_iff.mp ha).1
    rw [length_extendLabels] at hle
    refine Nat.lt_of_le_of_ne (Nat.le_of_lt_succ hle) ?_
    rintro rfl
    exact hl (Option.some.inj (ha.symm.trans getElem?_extendLabels_length))
  rw [h.length_eq] at hlt
  obtain ⟨l₀, hl₀⟩ := h.exists_label hlt
  rw [getElem?_extendLabels hl₀] at ha
  split at ha
  · exact absurd (Option.some.inj ha).symm hl
  · exact ⟨hlt, Option.some.inj ha ▸ hl₀⟩

theorem joined_of_eq {a b : Nat} (ha : a < ns.length + 1)
    (hab : (extendLabels labels n)[a]? = (extendLabels labels n)[b]?) :
    Joined (ns ++ [n]) a b := by
  have hlen : (extendLabels labels n).length = ns.length + 1 := by
    rw [length_extendLabels, h.length_eq]
  obtain ⟨l, hl⟩ : ∃ l, (extendLabels labels n)[a]? = some l :=
    ⟨_, List.getElem?_eq_getElem (hlen ▸ ha)⟩
  have hl' := hab.symm.trans hl
  by_cases hfresh : l = labels.length
  · subst hfresh
    exact (h.joined_of_fresh n hl).trans _ _ _ ((h.joined_of_fresh n hl').symm)
  · obtain ⟨hlt, hold⟩ := h.label_of_ne_fresh n hl hfresh
    obtain ⟨hlt', hold'⟩ := h.label_of_ne_fresh n hl' hfresh
    exact ((h.eq_iff a b hlt hlt').mp (hold.trans hold'.symm)).append n

theorem extend (hlt : ∀ (c : Nat) m, (ns ++ [n])[c]? = some m → ∀ p : Nat, p ∈ m.parents → p < c) :
    Labelled (ns ++ [n]) (extendLabels labels n) where
  length_eq := by simp [length_extendLabels, h.length_eq]
  lt_length := extendLabels_lt h.lt_length
  eq_iff a b ha hb := by
    rw [List.length_append, List.length_singleton] at ha
    refine ⟨h.joined_of_eq n ha, fun hab => hab.eq_of_edges (v := ((extendLabels labels n)[·]?)) ?_⟩
    intro c m hm p hp
    have hpc : p < c := hlt c m hm p hp
    rcases Nat.lt_or_ge c ns.length with hc | hc
    · -- An old edge: parent and child had one label, so they have one label now.
      rw [List.getElem?_append_left hc] at hm
      obtain ⟨l, hl⟩ := h.exists_label hc
      have hpl : labels[p]? = some l :=
        ((h.eq_iff p c (Nat.lt_trans hpc hc) hc).mpr (.rel _ _ ⟨m, hm, hp⟩)).trans hl
      rw [getElem?_extendLabels hl, getElem?_extendLabels hpl]
    · -- An edge to the new node: both ends get the fresh label.
      have hcn : c = ns.length := by
        have := (List.getElem?_eq_some_iff.mp hm).1
        rw [List.length_append, List.length_singleton] at this
        omega
      subst hcn
      rw [List.getElem?_concat_length, Option.some.injEq] at hm
      subst hm
      obtain ⟨l, hl⟩ := h.exists_label hpc
      rw [getElem?_extendLabels hl, if_pos ⟨p, hp, hl⟩, ← h.length_eq, getElem?_extendLabels_length]

end Labelled

theorem labelled_nil : Labelled [] [] := by
  refine ⟨rfl, ?_, ?_⟩
  · intro l hl
    cases hl
  · intro a b ha
    cases ha

theorem Labelled.foldl {rest ns : List Node} {labels : List Nat} (h : Labelled ns labels)
    (hlt : ∀ (c : Nat) m, (ns ++ rest)[c]? = some m → ∀ p : Nat, p ∈ m.parents → p < c) :
    Labelled (ns ++ rest) (rest.foldl extendLabels labels) := by
  induction rest generalizing ns labels with
  | nil => simpa using h
  | cons n rest ih =>
    rw [List.append_cons] at hlt ⊢
    refine ih (h.extend n fun c m hm => hlt c m ?_) hlt
    exact (List.getElem?_append_left (List.getElem?_eq_some_iff.mp hm).1).trans hm

theorem Sound.labelled {d : Dag} (h : d.Sound) : Labelled d.nodes d.labels :=
  labelled_nil.foldl h.parent_lt

/-! ## Chains of edges -/

namespace Sound

variable {d : Dag} (h : d.Sound)
include h

theorem parent_iff_child {a b : Nat} :
    (∃ n, d.get? a = some n ∧ b ∈ n.parents) ↔ ∃ m, d.get? b = some m ∧ a ∈ m.children := by
  simp only [Node.mem_parents, Node.mem_children]
  constructor
  · rintro ⟨n, hn, k, hk⟩
    obtain ⟨m, hm, hk⟩ := h.exists_child_iff.mpr ⟨n, hn, hk⟩
    exact ⟨m, hm, k, hk⟩
  · rintro ⟨m, hm, k, hk⟩
    obtain ⟨n, hn, hk⟩ := h.exists_child_iff.mp ⟨m, hm, hk⟩
    exact ⟨n, hn, k, hk⟩

theorem adjacent_iff {a b : Nat} : d.Adjacent a b ↔
    (∃ n, d.get? a = some n ∧ b ∈ n.parents) ∨ ∃ m, d.get? b = some m ∧ a ∈ m.parents := by
  rw [h.parent_iff_child (a := b)]
  simp only [Adjacent, and_or_left, exists_or]

theorem adjacent_symm {a b : Nat} (hab : d.Adjacent a b) : d.Adjacent b a :=
  h.adjacent_iff.mpr (h.adjacent_iff.mp hab).symm

theorem connected_symm {a b : Nat} (hab : d.Connected a b) : d.Connected b a := by
  induction hab with
  | refl => exact .refl
  | tail _ hstep ih => exact .head (h.adjacent_symm hstep) ih

theorem joined_iff_connected {a b : Nat} : Joined d.nodes a b ↔ d.Connected a b := by
  constructor
  · intro hab
    induction hab with
    | rel p c hedge => exact .single (h.adjacent_iff.mpr (.inr hedge))
    | refl a => exact .refl
    | symm a b _ ih => exact h.connected_symm ih
    | trans a b c _ _ ih ih' => exact ih.trans ih'
  · intro hab
    induction hab with
    | refl => exact .refl _
    | tail _ hstep ih =>
      refine ih.trans _ _ _ ?_
      rcases h.adjacent_iff.mp hstep with hedge | hedge
      · exact .symm _ _ (.rel _ _ hedge)
      · exact .rel _ _ hedge

theorem lt_of_adjacent {a b : Nat} (hab : d.Adjacent a b) : b < d.size := by
  obtain ⟨n, hn, -⟩ := h.adjacent_symm hab
  exact lt_size hn

theorem lt_of_connected {a b : Nat} (hab : d.Connected a b) (ha : a < d.size) : b < d.size := by
  induction hab with
  | refl => exact ha
  | tail _ hstep _ => exact h.lt_of_adjacent hstep

theorem labels_eq_iff {a b : Nat} (ha : a < d.size) (hb : b < d.size) :
    d.labels[a]? = d.labels[b]? ↔ d.Connected a b :=
  (h.labelled.eq_iff a b ha hb).trans h.joined_iff_connected

/-- The nodes that are found are those that a chain of edges joins to an entry. -/
theorem mem_connected_iff {entries : List NodeId} {a : Nat} :
    a ∈ d.connected entries ↔ a < d.size ∧ ∃ e ∈ entries, d.Connected e a := by
  have hlen : d.labels.length = d.size := h.labelled.length_eq
  unfold connected
  rw [List.mem_filter, List.mem_range]
  refine and_congr_right fun ha => ?_
  have hla : d.labels[a]? = some d.labels[a] := List.getElem?_eq_getElem (hlen ▸ ha)
  simp only [hla, List.contains_iff_mem, List.mem_filterMap]
  constructor
  · rintro ⟨e, he, hel⟩
    have helt : e < d.size := hlen ▸ (List.getElem?_eq_some_iff.mp hel).1
    exact ⟨e, he, (h.labels_eq_iff helt ha).mp (hel.trans hla.symm)⟩
  · rintro ⟨e, he, hea⟩
    have helt : e < d.size := h.lt_of_connected (h.connected_symm hea) ha
    exact ⟨e, he, ((h.labels_eq_iff helt ha).mpr hea).trans hla⟩

end Sound
end Dag
end BatchFlow

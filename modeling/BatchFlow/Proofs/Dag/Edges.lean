import BatchFlow.Dag
import BatchFlow.Proofs.Outcome
import Mathlib.Data.List.Basic

/-!
# Edges of a dag

An edge is recorded at both of its ends. `Dag.Awaiting` says that the two records agree, that edges
go from smaller to greater ids, and that the child lists are in order and of one sort; it allows for
one node more, which some nodes list as a child before it is there. A dag is sound when it waits
for no such node. Linking goes from one waiting dag to the next, and the insertion ends with a sound
one.
-/

namespace BatchFlow

namespace Node

/-- Whether the node declares a parent, under a condition if one is given. -/
def HasParent (n : Node) (p : NodeId) : Option Condition → Prop
  | none => p ∈ n.plainParents
  | some c => ⟨p, c⟩ ∈ n.conditionalParents

/-- Whether the node lists a child, under a condition if one is given. -/
def HasChild (n : Node) (v : NodeId) : Option Condition → Prop
  | none => v ∈ n.plainChildren
  | some c => ⟨v, c⟩ ∈ n.conditionalChildren

/-- The neighbours on one side are those without a condition and those with one. -/
theorem mem_neighbours {plain : List NodeId} {conditional : List Branch} {v : NodeId} :
    v ∈ plain ++ conditional.map Branch.node ↔ v ∈ plain ∨ ∃ c, ⟨v, c⟩ ∈ conditional := by
  rw [List.mem_append, List.mem_map]
  refine or_congr_right ?_
  constructor
  · rintro ⟨b, h, rfl⟩
    exact ⟨b.condition, h⟩
  · rintro ⟨c, h⟩
    exact ⟨⟨v, c⟩, h, rfl⟩

theorem mem_parents {n : Node} {p : NodeId} : p ∈ n.parents ↔ ∃ c, n.HasParent p c := by
  rw [Option.exists]
  exact mem_neighbours

theorem mem_children {n : Node} {v : NodeId} : v ∈ n.children ↔ ∃ c, n.HasChild v c := by
  rw [Option.exists]
  exact mem_neighbours

/-- What holds of the child lists of a node: both are in order, one of them is empty, and at most
one child is the default. -/
structure Tidy (n : Node) : Prop where
  plain_sorted : n.plainChildren.Pairwise (· < ·)
  conditional_sorted : (n.conditionalChildren.map Branch.node).Pairwise (· < ·)
  unmixed : n.plainChildren = [] ∨ n.conditionalChildren = []
  one_default : n.conditionalChildren.countP (·.condition.isDefault) ≤ 1

theorem Tidy.sorted {n : Node} (h : n.Tidy) : n.children.Pairwise (· < ·) := by
  rcases h.unmixed with h' | h'
  · simpa [children, h'] using h.conditional_sorted
  · simpa [children, h'] using h.plain_sorted

theorem Tidy.nodup {n : Node} (h : n.Tidy) : n.children.Nodup :=
  h.sorted.imp fun hlt => Nat.ne_of_lt hlt

/-- The node with one more child. -/
def withChild (n : Node) (v : NodeId) : Option Condition → Node
  | none => { n with plainChildren := n.plainChildren ++ [v] }
  | some c => { n with conditionalChildren := n.conditionalChildren ++ [⟨v, c⟩] }

section withChild

variable (n : Node) (v : NodeId) (c : Option Condition)

@[simp] theorem withChild_id : (n.withChild v c).id = n.id := by cases c <;> rfl

@[simp] theorem withChild_parents : (n.withChild v c).parents = n.parents := by cases c <;> rfl

theorem withChild_hasParent {p : NodeId} {k : Option Condition} :
    (n.withChild v c).HasParent p k ↔ n.HasParent p k := by
  cases c <;> cases k <;> rfl

theorem withChild_hasChild {u : NodeId} {k : Option Condition} :
    (n.withChild v c).HasChild u k ↔ n.HasChild u k ∨ (u = v ∧ k = c) := by
  cases c <;> cases k <;> simp [withChild, HasChild]

end withChild

theorem addChild_eq_ok_iff {n n' : Node} {v : Nat} {c : Option Condition} :
    n.addChild v c = .ok n' ↔ n.check c = .ok () ∧ n' = n.withChild v c := by
  refine bind_eq_ok_iff.trans ⟨?_, ?_⟩
  · rintro ⟨u, hc, hn⟩
    cases c <;> cases hn <;> exact ⟨hc, rfl⟩
  · rintro ⟨hc, rfl⟩
    refine ⟨(), hc, ?_⟩
    cases c <;> rfl

theorem check_none_eq_ok_iff {n : Node} :
    n.check none = .ok () ↔ n.conditionalChildren = [] := by
  simp [check]

theorem check_some_eq_ok_iff {n : Node} {c : Condition} :
    n.check (some c) = .ok () ↔
      n.plainChildren = [] ∧ (c.isDefault = true → n.defaultChild? = none) := by
  unfold check
  by_cases hp : n.plainChildren = []
  · by_cases hd : c.isDefault && n.defaultChild?.isSome
    · simp only [hp, hd]
      simp only [Bool.and_eq_true, Option.isSome_iff_ne_none] at hd
      simp [hd.1, hd.2]
    · simp only [hp, hd]
      simp only [Bool.and_eq_true, Option.isSome_iff_ne_none, not_and, not_not] at hd
      simpa using hd
  · simp [hp]

theorem defaultChild?_eq_none_iff {n : Node} :
    n.defaultChild? = none ↔ n.conditionalChildren.countP (·.condition.isDefault) = 0 := by
  simp [defaultChild?, List.find?_eq_none, List.countP_eq_zero]

/-- A child that comes after all others leaves the lists tidy, if the check admits it. -/
theorem Tidy.withChild {n : Node} {v : Nat} {c : Option Condition} (h : n.Tidy)
    (hv : ∀ u : Nat, u ∈ n.children → u < v) (hc : n.check c = .ok ()) :
    (n.withChild v c).Tidy := by
  cases c with
  | none =>
    have hnone := check_none_eq_ok_iff.mp hc
    refine ⟨?_, h.conditional_sorted, .inr hnone, h.one_default⟩
    refine List.pairwise_append.mpr ⟨h.plain_sorted, by simp, fun u hu x hx => ?_⟩
    rw [List.mem_singleton.mp hx]
    exact hv u (mem_children.mpr ⟨none, hu⟩)
  | some c =>
    obtain ⟨hnone, hd⟩ := check_some_eq_ok_iff.mp hc
    refine ⟨h.plain_sorted, ?_, .inl hnone, ?_⟩
    · simp only [Node.withChild, List.map_append, List.map_cons, List.map_nil]
      refine List.pairwise_append.mpr ⟨h.conditional_sorted, by simp, fun u hu x hx => ?_⟩
      rw [List.mem_singleton.mp hx]
      exact hv u (List.mem_append_right _ hu)
    · simp only [Node.withChild, List.countP_append, List.countP_singleton]
      have := h.one_default
      by_cases hc' : c.isDefault = true
      · have := defaultChild?_eq_none_iff.mp (hd hc')
        simp only [hc', if_true]
        omega
      · simp only [hc', if_false, Bool.false_eq_true]
        omega

end Node

namespace Dag

/-- Edges agree at both ends, but for a node yet to come: the links say which nodes already list it
as a child. -/
structure Awaiting (d : Dag) (links : List Link) : Prop where
  id_eq : ∀ (i : Nat) n, d.get? i = some n → n.id = i
  tidy : ∀ (i : Nat) n, d.get? i = some n → n.Tidy
  parents_nodup : ∀ (i : Nat) n, d.get? i = some n → n.parents.Nodup
  parent_lt : ∀ (i : Nat) n, d.get? i = some n → ∀ p : Nat, p ∈ n.parents → p < i
  child_le : ∀ (i : Nat) n, d.get? i = some n → ∀ v : Nat, v ∈ n.children → v ≤ d.size
  edge_iff : ∀ (i j : Nat) m n c, d.get? i = some m → d.get? j = some n →
    (m.HasChild j c ↔ n.HasParent i c)
  awaited_iff : ∀ (i : Nat) m c, d.get? i = some m → (m.HasChild d.size c ↔ ⟨i, c⟩ ∈ links)

/-- Edges agree at both ends, parents stand before their children, and child lists are tidy. -/
def Sound (d : Dag) : Prop := d.Awaiting []

theorem get?_eq_some_iff {d : Dag} {i : Nat} : (∃ n, d.get? i = some n) ↔ i < d.size := by
  simp only [get?, size, ← Option.isSome_iff_exists, isSome_getElem?]

theorem lt_size {d : Dag} {i : Nat} {n : Node} (h : d.get? i = some n) : i < d.size :=
  get?_eq_some_iff.mp ⟨n, h⟩

theorem node_eq_ok_iff {d : Dag} {i : Nat} {n : Node} :
    d.node i = .ok n ↔ d.get? i = some n := by
  unfold node
  cases d.get? i <;> simp

theorem node_eq_error_iff {d : Dag} {i : Nat} {e : BuildError} :
    d.node i = .error e ↔ d.size ≤ i ∧ e = .unknownNode i := by
  unfold node
  cases hn : d.get? i with
  | none =>
    have hge : d.size ≤ i := List.getElem?_eq_none_iff.mp hn
    simp [hge, @eq_comm _ e]
  | some n =>
    have hlt := lt_size hn
    simp [Nat.not_le.mpr hlt]

theorem mem_nodes_iff {d : Dag} {n : Node} : n ∈ d.nodes ↔ ∃ i, d.get? i = some n := by
  simp only [get?, List.mem_iff_getElem?]

theorem Awaiting.ids_eq {d : Dag} {links : List Link} (h : d.Awaiting links) :
    d.nodes.map Node.id = List.range d.size := by
  refine List.ext_getElem (by simp [size]) fun i hi _ => ?_
  rw [List.getElem_map, List.getElem_range]
  exact h.id_eq i _ (List.getElem?_eq_getElem (by simpa using hi))

theorem link_eq_ok_iff {d d' : Dag} {v : NodeId} {l : Link} :
    d.link v l = .ok d' ↔ ∃ n, d.get? l.parent = some n ∧ n.check l.condition = .ok () ∧
      d' = ⟨d.nodes.set l.parent (n.withChild v l.condition)⟩ := by
  refine bind_eq_ok_iff.trans (exists_congr fun n => and_congr node_eq_ok_iff ?_)
  refine bind_eq_ok_iff.trans ⟨?_, ?_⟩
  · rintro ⟨n', hn', hd⟩
    obtain ⟨hc, rfl⟩ := Node.addChild_eq_ok_iff.mp hn'
    cases hd
    exact ⟨hc, rfl⟩
  · rintro ⟨hc, rfl⟩
    exact ⟨_, Node.addChild_eq_ok_iff.mpr ⟨hc, rfl⟩, rfl⟩

theorem size_link {d d' : Dag} {v : NodeId} {l : Link} (h : d.link v l = .ok d') :
    d'.size = d.size := by
  obtain ⟨n, -, -, rfl⟩ := link_eq_ok_iff.mp h
  simp [size]

/-- What linking does to a node: at most one child more, and everything else stays. -/
theorem exists_of_link {d d' : Dag} {v i : Nat} {l : Link} {m : Node}
    (h : d.link v l = .ok d') (hm : d'.get? i = some m) :
    ∃ m₀, d.get? i = some m₀ ∧ m.id = m₀.id ∧ m.parents = m₀.parents ∧
      (∀ p k, m.HasParent p k ↔ m₀.HasParent p k) ∧
      (∀ u k, m.HasChild u k ↔ m₀.HasChild u k ∨ (u = v ∧ l = ⟨i, k⟩)) ∧
      (m₀.Tidy → (l.parent = i → ∀ u : Nat, u ∈ m₀.children → u < v) → m.Tidy) := by
  obtain ⟨n, hn, hc, rfl⟩ := link_eq_ok_iff.mp h
  have hlt : l.parent < d.nodes.length := lt_size hn
  simp only [get?, List.getElem?_set, hlt, if_true] at hm
  by_cases hi : l.parent = i
  · subst hi
    simp only [if_true, Option.some.injEq] at hm
    subst hm
    refine ⟨n, hn, by simp, by simp, fun p k => Node.withChild_hasParent .., fun u k => ?_,
      fun ht hu => ht.withChild (hu rfl) hc⟩
    rw [Node.withChild_hasChild]
    cases l
    simp [@eq_comm _ k]
  · simp only [hi, if_false] at hm
    refine ⟨m, hm, rfl, rfl, fun _ _ => Iff.rfl, fun u k => ?_, fun ht _ => ht⟩
    refine ⟨.inl, fun hu => hu.resolve_right ?_⟩
    rintro ⟨-, rfl⟩
    exact hi rfl

/-- Linking one more parent to the awaited node. -/
theorem Awaiting.link {d d' : Dag} {links : List Link} {l : Link} (h : d.Awaiting links)
    (hl : d.link d.size l = .ok d') (hnew : l.parent ∉ links.map Link.parent) :
    d'.Awaiting (links ++ [l]) := by
  have hsize := size_link hl
  constructor
  case id_eq =>
    intro i m hm
    obtain ⟨m₀, hm₀, hid, -⟩ := exists_of_link hl hm
    rw [hid, h.id_eq i m₀ hm₀]
  case tidy =>
    intro i m hm
    obtain ⟨m₀, hm₀, -, -, -, -, htidy⟩ := exists_of_link hl hm
    -- No node lists the awaited one yet, so it comes after all children there are.
    refine htidy (h.tidy i m₀ hm₀) fun hi u hu => ?_
    refine Nat.lt_of_le_of_ne (h.child_le i m₀ hm₀ u hu) ?_
    rintro rfl
    obtain ⟨c, hu⟩ := Node.mem_children.mp hu
    have hmem := List.mem_map_of_mem (f := Link.parent) ((h.awaited_iff i m₀ c hm₀).mp hu)
    exact hnew (by rwa [hi])
  case parents_nodup =>
    intro i m hm
    obtain ⟨m₀, hm₀, -, hp, -⟩ := exists_of_link hl hm
    rw [hp]
    exact h.parents_nodup i m₀ hm₀
  case parent_lt =>
    intro i m hm
    obtain ⟨m₀, hm₀, -, hp, -⟩ := exists_of_link hl hm
    rw [hp]
    exact h.parent_lt i m₀ hm₀
  case child_le =>
    intro i m hm v hv
    obtain ⟨m₀, hm₀, -, -, -, hchild, -⟩ := exists_of_link hl hm
    obtain ⟨c, hv⟩ := Node.mem_children.mp hv
    rw [hsize]
    rcases (hchild v c).mp hv with hv | ⟨rfl, -⟩
    · exact h.child_le i m₀ hm₀ v (Node.mem_children.mpr ⟨c, hv⟩)
    · exact Nat.le_refl _
  case edge_iff =>
    intro i j m n c hm hn
    have hj : j < d.size := hsize ▸ lt_size hn
    obtain ⟨m₀, hm₀, -, -, -, hchild, -⟩ := exists_of_link hl hm
    obtain ⟨n₀, hn₀, -, -, hparent, -⟩ := exists_of_link hl hn
    rw [hchild, hparent, ← h.edge_iff i j m₀ n₀ c hm₀ hn₀]
    refine ⟨fun hv => hv.resolve_right ?_, .inl⟩
    rintro ⟨rfl, -⟩
    exact Nat.lt_irrefl _ hj
  case awaited_iff =>
    intro i m c hm
    obtain ⟨m₀, hm₀, -, -, -, hchild, -⟩ := exists_of_link hl hm
    rw [hsize, hchild, h.awaited_iff i m₀ c hm₀]
    simp [@eq_comm _ l]

theorem Awaiting.foldlM_link {links : List Link} {d d' : Dag} {done : List Link} {v : Nat}
    (h : d.Awaiting done) (hv : v = d.size) (hl : links.foldlM (Dag.link v) d = .ok d')
    (hnodup : ((done ++ links).map Link.parent).Nodup) :
    d'.Awaiting (done ++ links) ∧ d'.size = d.size := by
  induction links generalizing d done with
  | nil =>
    cases hl
    simpa using h
  | cons l rest ih =>
    subst hv
    rw [List.foldlM_cons] at hl
    obtain ⟨d₁, hfirst, hl⟩ := bind_eq_ok_iff.mp hl
    have hnew : l.parent ∉ done.map Link.parent := by
      simp only [List.map_append, List.map_cons, List.nodup_append, List.mem_cons] at hnodup
      exact fun hmem => hnodup.2.2 _ hmem _ (.inl rfl) rfl
    have hsize := size_link hfirst
    have hrest := ih (h.link hfirst hnew) hsize.symm hl (by simpa using hnodup)
    simpa [hsize] using hrest

theorem sound_empty : ({} : Dag).Sound := by
  refine ⟨?_, ?_, ?_, ?_, ?_, ?_, ?_⟩ <;> intro i m <;> simp [get?]

/-! ### Insertion -/

theorem forM_eq_ok {β ε : Type} {f : β → Except ε Unit} {l : List β} (h : l.forM f = .ok ()) :
    ∀ x ∈ l, f x = .ok () := by
  induction l with
  | nil => exact fun x hx => by cases hx
  | cons y rest ih =>
    obtain ⟨_, hy, hrest⟩ := bind_eq_ok_iff.mp h
    intro x hx
    rcases List.mem_cons.mp hx with rfl | hx
    · exact hy
    · exact ih hrest x hx

theorem exists_of_checkLink {d : Dag} {l : Link} (h : d.checkLink l = .ok ()) :
    ∃ n, d.get? l.parent = some n := by
  obtain ⟨n, hn, -⟩ := bind_eq_ok_iff.mp h
  exact ⟨n, node_eq_ok_iff.mp hn⟩

/-- The node that an insertion appends. -/
def appended (d : Dag) (spec : NodeSpec) (name : String) (action : Action) : Node :=
  { id := d.size, name, action
    plainParents := spec.plainParents
    conditionalParents := spec.conditionalParents
    handler := spec.handler }

theorem of_insert_eq_ok {d d' : Dag} {spec : NodeSpec} {action : Action} {id : NodeId}
    (h : d.insert spec action = .ok (id, d')) :
    ∃ name linked, spec.name = some name ∧ (∀ l ∈ spec.links, ∃ n, d.get? l.parent = some n) ∧
      spec.links.foldlM (Dag.link d.size) d = .ok linked ∧ id = d.size ∧
      d' = ⟨linked.nodes ++ [d.appended spec name action]⟩ := by
  unfold insert at h
  cases hname : spec.name with
  | none =>
    rw [hname] at h
    cases h
  | some name =>
    rw [hname] at h
    obtain ⟨_, hpure, h⟩ := bind_eq_ok_iff.mp h
    cases hpure
    obtain ⟨_, hcheck, h⟩ := bind_eq_ok_iff.mp h
    obtain ⟨linked, hlink, h⟩ := bind_eq_ok_iff.mp h
    cases h
    exact ⟨name, linked, rfl, fun l hl => exists_of_checkLink (forM_eq_ok hcheck l hl), hlink, rfl,
      rfl⟩

theorem get?_append {d : Dag} {n : Node} {i : Nat} {m : Node} :
    (⟨d.nodes ++ [n]⟩ : Dag).get? i = some m ↔ d.get? i = some m ∨ (i = d.size ∧ n = m) := by
  rw [get?, List.getElem?_append, get?, size]
  split
  · rename_i hlt
    exact ⟨.inl, fun h => h.resolve_right fun h => absurd h.1 (Nat.ne_of_lt hlt)⟩
  · rename_i hge
    rw [List.getElem?_eq_none (Nat.le_of_not_lt hge)]
    by_cases hi : i = d.nodes.length
    · simp [hi]
    · have hpos : ∃ k, i - d.nodes.length = k + 1 := ⟨i - d.nodes.length - 1, by omega⟩
      obtain ⟨k, hk⟩ := hpos
      simp [hk, hi]

theorem appended_hasParent {d : Dag} {spec : NodeSpec} {name : String} {action : Action}
    {p : NodeId} {c : Option Condition} :
    (d.appended spec name action).HasParent p c ↔ ⟨p, c⟩ ∈ spec.links := by
  cases c with
  | none => simp [Node.HasParent, appended, NodeSpec.links]
  | some c =>
    simp only [Node.HasParent, appended, NodeSpec.links, List.mem_append, List.mem_map,
      Link.mk.injEq, reduceCtorEq, and_false, exists_false, false_or, Option.some.injEq]
    exact ⟨fun h => ⟨_, h, rfl, rfl⟩, fun ⟨⟨_, _⟩, h, h₁, h₂⟩ => h₁ ▸ h₂ ▸ h⟩

theorem Awaiting.append {d : Dag} {links : List Link} {n : Node} (h : d.Awaiting links)
    (hid : n.id = d.size) (hchildren : n.children = []) (hnodup : n.parents.Nodup)
    (hlt : ∀ p : Nat, p ∈ n.parents → p < d.size)
    (hlinks : ∀ p c, n.HasParent p c ↔ ⟨p, c⟩ ∈ links) :
    (⟨d.nodes ++ [n]⟩ : Dag).Sound := by
  have hsize : (⟨d.nodes ++ [n]⟩ : Dag).size = d.size + 1 := by simp [size]
  have hno : ∀ v c, ¬ n.HasChild v c := by
    intro v c hv
    have := Node.mem_children.mpr ⟨c, hv⟩
    rw [hchildren] at this
    exact List.not_mem_nil this
  have hno' : ∀ p c, n.HasParent p c → p < d.size := fun p c hp =>
    hlt p (Node.mem_parents.mpr ⟨c, hp⟩)
  constructor
  case id_eq =>
    intro i m hm
    rcases get?_append.mp hm with hm | ⟨rfl, rfl⟩
    · exact h.id_eq i m hm
    · exact hid
  case tidy =>
    intro i m hm
    rcases get?_append.mp hm with hm | ⟨rfl, rfl⟩
    · exact h.tidy i m hm
    · simp only [Node.children, List.append_eq_nil_iff, List.map_eq_nil_iff] at hchildren
      exact ⟨by simp [hchildren.1], by simp [hchildren.2], .inl hchildren.1, by simp [hchildren.2]⟩
  case parents_nodup =>
    intro i m hm
    rcases get?_append.mp hm with hm | ⟨rfl, rfl⟩
    · exact h.parents_nodup i m hm
    · exact hnodup
  case parent_lt =>
    intro i m hm
    rcases get?_append.mp hm with hm | ⟨rfl, rfl⟩
    · exact h.parent_lt i m hm
    · exact hlt
  case child_le =>
    intro i m hm v hv
    rw [hsize]
    rcases get?_append.mp hm with hm | ⟨rfl, rfl⟩
    · exact Nat.le_succ_of_le (h.child_le i m hm v hv)
    · simp [hchildren] at hv
  case edge_iff =>
    intro i j m k c hm hk
    rcases get?_append.mp hm with hm | ⟨rfl, rfl⟩ <;> rcases get?_append.mp hk with hk | ⟨rfl, rfl⟩
    · exact h.edge_iff i j m k c hm hk
    · rw [h.awaited_iff i m c hm, hlinks]
    · refine iff_of_false (hno j c) fun hp => ?_
      have hj := h.parent_lt j k hk _ (Node.mem_parents.mpr ⟨c, hp⟩)
      have := lt_size hk
      omega
    · exact iff_of_false (hno _ c) fun hp => Nat.lt_irrefl _ (hno' _ c hp)
  case awaited_iff =>
    intro i m c hm
    rw [hsize]
    refine iff_of_false (fun hv => ?_) List.not_mem_nil
    rcases get?_append.mp hm with hm | ⟨rfl, rfl⟩
    · have := h.child_le i m hm _ (Node.mem_children.mpr ⟨c, hv⟩)
      omega
    · exact hno _ c hv

/-- A dag stays sound when a node is inserted whose parents are all different. -/
theorem Sound.insert {d d' : Dag} {spec : NodeSpec} {action : Action} {id : NodeId}
    (h : d.Sound) (hnodup : (spec.links.map Link.parent).Nodup)
    (hi : d.insert spec action = .ok (id, d')) : d'.Sound := by
  obtain ⟨name, linked, -, hknown, hlinked, rfl, rfl⟩ := of_insert_eq_ok hi
  obtain ⟨hawait, hsize⟩ := Awaiting.foldlM_link h rfl hlinked (by simpa using hnodup)
  have hparents : (d.appended spec name action).parents = spec.links.map Link.parent := by
    simp [Node.parents, appended, NodeSpec.links, Function.comp_def]
  refine hawait.append hsize.symm rfl (hparents ▸ hnodup) ?_ fun p c => ?_
  · intro p hp
    rw [hparents] at hp
    obtain ⟨l, hl, rfl⟩ := List.mem_map.mp hp
    obtain ⟨n, hn⟩ := hknown l hl
    exact hsize ▸ lt_size hn
  · rw [appended_hasParent, List.nil_append]

end Dag
end BatchFlow

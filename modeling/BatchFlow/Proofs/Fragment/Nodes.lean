import BatchFlow.Proofs.Dag.Insertion
import BatchFlow.Proofs.Fragment.Build
import BatchFlow.Proofs.Fragment.Strand

/-!
# Nodes of a fragment

A node of a fragment is built with a new builder, which takes any name and any parents that are all
different, so the dag admits it if its parents have room. They do if nothing comes behind them yet
or if what does may stand beside the new edge. What the dag held stays as it was.
-/

namespace BatchFlow

/-! ## Room for a child -/

/-- Edges under the two conditions may leave one node. -/
def Beside (c c' : Option Condition) : Prop :=
  (c = none ↔ c' = none) ∧ ¬ (c = some .otherwise ∧ c' = some .otherwise)

theorem Dag.Sound.takesChild {d : Dag} (h : d.Sound) {p : Nat} {m : Node} (hm : d.get? p = some m)
    {c : Option Condition} (hroom : ∀ k v, d.Enters (.node p) k v → Beside k c) :
    m.TakesChild c := by
  have hchild : ∀ k v, m.HasChild v k → Beside k c := fun k v hv =>
    hroom k v (h.enters_node_iff.mpr ⟨m, hm, hv⟩)
  cases c with
  | none =>
    refine List.eq_nil_iff_forall_not_mem.mpr fun b hb => ?_
    have hbeside := hchild (some b.condition) b.node hb
    cases hbeside.1.mpr rfl
  | some c =>
    refine ⟨List.eq_nil_iff_forall_not_mem.mpr fun v hv => ?_, ?_⟩
    · have hbeside := hchild none v hv
      cases hbeside.1.mp rfl
    · rintro ⟨rfl, b, hb, hdefault⟩
      have hbeside := hchild (some b.condition) b.node hb
      exact hbeside.2 ⟨congrArg some hdefault, rfl⟩

/-! ## Parents of a builder -/

namespace NodeDraft

theorem mem_links_withParent {d : NodeDraft} {p : NodeId} {c : Option Condition} {l : Link} :
    l ∈ (d.withParent p c).spec.links ↔ l ∈ d.spec.links ∨ l = ⟨p, c⟩ := by
  cases c with
  | none =>
    simp only [withParent, spec, NodeSpec.links, List.map_append, List.map_cons, List.map_nil,
      List.mem_append, List.mem_singleton]
    tauto
  | some c =>
    simp only [withParent, spec, NodeSpec.links, List.map_append, List.map_cons, List.map_nil,
      List.mem_append, List.mem_singleton, or_assoc]

theorem withParents_spec (links : List Link) {d : NodeDraft} :
    (d.withParents links).spec.name = d.spec.name ∧
    (d.withParents links).spec.handler = d.spec.handler ∧
    ∀ l, l ∈ (d.withParents links).spec.links ↔ l ∈ d.spec.links ∨ l ∈ links := by
  induction links generalizing d with
  | nil => exact ⟨rfl, rfl, fun l => by simp [withParents]⟩
  | cons l rest ih =>
    obtain ⟨hname, hhandler, hlinks⟩ := ih (d := d.withParent l.parent l.condition)
    refine ⟨hname.trans (congrArg WriteOnce.value (d.name_withParent ..)),
      hhandler.trans (congrArg WriteOnce.value (d.handler_withParent ..)), fun m => ?_⟩
    exact (hlinks m).trans (by rw [mem_links_withParent, List.mem_cons, or_assoc])

end NodeDraft

/-- A builder takes a name and different parents. -/
theorem Builder.exists_named {k : Kind} (name : String) (links : List Link)
    (hnodup : (links.map Link.parent).Nodup) :
    ∃ b : Builder k, (.node (.name name) ::
        links.map fun l => .node (.parent l.parent l.condition)).foldlM apply (.new k) = .ok b ∧
      b.node.spec.name = some name ∧ b.node.spec.handler = none ∧
      ∀ l, l ∈ b.node.spec.links ↔ l ∈ links := by
  let named : Builder k := { node := { name := ⟨some name, true⟩ }, draft := k.draft }
  have hfirst : (Builder.new k).apply (.node (.name name)) = .ok named := rfl
  obtain ⟨hname, hhandler, hlinks⟩ := named.node.withParents_spec links
  refine ⟨{ named with node := named.node.withParents links }, ?_, hname, hhandler,
    fun l => (hlinks l).trans (or_iff_right List.not_mem_nil)⟩
  rw [List.foldlM_cons, hfirst]
  exact foldlM_parents links (b := named) hnodup

namespace Fragment

/-! ## One node -/

def stems : List String := ["t", "p", "j", "d", "c", "m"]

/-- Names are numbered in the order of the nodes, and there are no handlers. -/
structure Assembly.Fine (s : Assembly) : Prop where
  reached : Artifact.Reached (.dag s.dag)
  counter_eq : s.counter = s.dag.size
  plain : ∀ (i : Nat) n, s.dag.get? i = some n → n.handler = none ∧
    ∃ stem ∈ stems, n.name = stem ++ toString (i + 1)

/-- There are more nodes in the second one, and the edges into those of the first are the same. -/
structure Assembly.Grown (s s' : Assembly) : Prop where
  fine : s'.Fine
  size_le : s.dag.size ≤ s'.dag.size
  same : ∀ b c v, v < s.dag.size → (s'.dag.Enters b c v ↔ s.dag.Enters b c v)

/-- There is one node more in the second one, entered by these edges. -/
structure Assembly.Gained (s : Assembly) (ins : List (Place × Option Condition)) (s' : Assembly) :
    Prop extends s.Grown s' where
  size_eq : s'.dag.size = s.dag.size + 1
  only : Inflow.Only s'.dag.Enters s.dag.size ins

/-- Nothing comes behind the place yet. -/
def Assembly.Free (s : Assembly) (a : Place) : Prop :=
  a.rank ≤ s.dag.size ∧ ∀ u, a = .node u → ∀ c v, ¬ s.dag.Enters (.node u) c v

namespace Assembly

variable {s s' s'' : Assembly}

theorem Grown.trans (h : s.Grown s') (h' : s'.Grown s'') : s.Grown s'' where
  fine := h'.fine
  size_le := Nat.le_trans h.size_le h'.size_le
  same b c v hv :=
    (h'.same b c v (Nat.lt_of_lt_of_le hv h.size_le)).trans (h.same b c v hv)

theorem Grown.refl (h : s.Fine) : s.Grown s := ⟨h, Nat.le_refl _, fun _ _ _ _ => Iff.rfl⟩

/-- Edges are the same at each node that has some. -/
theorem Grown.same_of_enters (h : s.Grown s') : ∀ b c v, s.dag.Enters b c v →
    ∀ b' c', s'.dag.Enters b' c' v ↔ s.dag.Enters b' c' v :=
  fun _ _ v hv b' c' => h.same b' c' v hv.lt_size

theorem Fine.sound (h : s.Fine) : s.dag.Sound := Artifact.Reached.sound h.reached

/-- Nothing comes behind the last node. -/
theorem Fine.free_last (h : s.Fine) {u : Nat} (hu : u + 1 = s.dag.size) : s.Free (.node u) := by
  refine ⟨Nat.le_of_eq hu, fun u' hu' c v hv => ?_⟩
  obtain rfl := Place.node.inj hu'
  have hle : u + 1 ≤ v := h.sound.enters_forward _ c v hv
  exact absurd hv.lt_size (by omega)

/-- The edges that links make, or the one from the source if there are none. -/
def insOf (links : List Link) : List (Place × Option Condition) :=
  if links = [] then [(.source, none)] else links.map fun l => (.node l.parent, l.condition)

theorem mem_insOf_source {links : List Link} {c : Option Condition} :
    (.source, c) ∈ insOf links ↔ c = none ∧ links = [] := by
  unfold insOf
  split <;> simp_all

theorem mem_insOf_node {links : List Link} {u : Nat} {c : Option Condition} :
    (.node u, c) ∈ insOf links ↔ ⟨u, c⟩ ∈ links := by
  unfold insOf
  split
  · simp_all
  · rw [List.mem_map]
    constructor
    · rintro ⟨l, hl, heq⟩
      obtain ⟨hu, rfl⟩ := Prod.mk.inj heq
      obtain rfl := Place.node.inj hu
      exact hl
    · exact fun hl => ⟨_, hl, rfl⟩

theorem insOf_ne_nil (links : List Link) : insOf links ≠ [] := by
  unfold insOf
  split
  · exact List.cons_ne_nil _ _
  · simpa

/-- A node behind different nodes that have room for it is built. -/
theorem Fine.exists_node (hs : s.Fine) {stem : String} (hstem : stem ∈ stems) (entry : Entry)
    (others : List NodeId) (hnodup : ((entry.linksWith others).map Link.parent).Nodup)
    (hroom : ∀ l ∈ entry.linksWith others, ∃ m, s.dag.get? l.parent = some m ∧
      m.TakesChild l.condition) :
    ∃ s', s.node stem entry others = .ok (s.dag.size, s') ∧
      s.Gained (insOf (entry.linksWith others)) s' := by
  obtain ⟨b, hedits, hname, hhandler, hlinks⟩ := Builder.exists_named (k := .shell)
    (stem ++ toString (s.counter + 1)) (entry.linksWith others) hnodup
  have hreached : Artifact.Reached (.builder .shell b) :=
    Script.reached_foldlM_apply (.new .shell) hedits
  have hadmits : s.dag.Admits b.node.spec :=
    ⟨ne_of_eq_of_ne hname (Option.some_ne_none _), fun l hl => hroom l ((hlinks l).mp hl)⟩
  obtain ⟨d, hinsert, hgrows⟩ := Dag.exists_insert b.action
    (b.node.map_parent_links.symm ▸ hreached.sound) hadmits
  obtain ⟨name, hspec, hnew⟩ := hgrows.new
  obtain rfl : stem ++ toString (s.counter + 1) = name :=
    Option.some.inj (hname.symm.trans hspec)
  have hkept : ∀ v n, s.dag.get? v = some n → ∃ m, d.get? v = some m ∧ m.name = n.name ∧
      m.handler = n.handler ∧ ∀ b c, m.Follows b c ↔ n.Follows b c := by
    intro v n hn
    obtain ⟨m, hm, hmname, hmhandler, hplain, hcond⟩ := hgrows.kept hn
    exact ⟨m, hm, hmname, hmhandler, fun b c => Node.follows_congr hplain hcond⟩
  have hfine : Assembly.Fine ⟨d, s.counter + 1⟩ := by
    refine ⟨.node hreached hs.reached hinsert, ?_, fun i n hn => ?_⟩
    · exact (congrArg (· + 1) hs.counter_eq).trans hgrows.size_eq.symm
    · have hlt : i < s.dag.size + 1 := hgrows.size_eq ▸ Dag.lt_size hn
      rcases Nat.lt_succ_iff_lt_or_eq.mp hlt with hi | rfl
      · obtain ⟨n₀, hn₀⟩ := Dag.get?_eq_some_iff.mpr hi
        obtain ⟨m, hm, hmname, hmhandler, -⟩ := hkept i n₀ hn₀
        obtain rfl : m = n := Option.some.inj (hm.symm.trans hn)
        obtain ⟨hnone, stem', hstem', heq⟩ := hs.plain i n₀ hn₀
        exact ⟨hmhandler.trans hnone, stem', hstem', hmname.trans heq⟩
      · obtain rfl := Option.some.inj (hnew.symm.trans hn)
        exact ⟨hhandler, stem, hstem, by rw [hs.counter_eq]⟩
  refine ⟨⟨d, s.counter + 1⟩, bind_eq_ok_iff.mpr ⟨b, hedits, bind_eq_ok_iff.mpr ⟨_, hinsert, rfl⟩⟩,
    ⟨hfine, Nat.le_of_lt (hgrows.size_eq ▸ Nat.lt_succ_self _), fun b' c v hv => ?_⟩,
    hgrows.size_eq, insOf_ne_nil _, fun b' c => (Dag.enters_iff hnew).trans ?_⟩
  · obtain ⟨n, hn⟩ := Dag.get?_eq_some_iff.mpr hv
    obtain ⟨m, hm, -, -, hsame⟩ := hkept v n hn
    exact (Dag.enters_iff hm).trans ((hsame b' c).trans (Dag.enters_iff hn).symm)
  · cases b' with
    | source =>
      rw [mem_insOf_source, Node.Follows]
      refine and_congr_right fun _ => ?_
      have hparents : b.node.parents = [] ↔ b.node.spec.links = [] := by
        rw [← b.node.map_parent_links, List.map_eq_nil_iff]
      have hnil : entry.linksWith others = [] ↔ b.node.spec.links = [] := by
        simp only [List.eq_nil_iff_forall_not_mem, hlinks]
      exact hparents.trans hnil.symm
    | node u =>
      rw [mem_insOf_node, ← hlinks ⟨u, c⟩]
      exact Dag.appended_hasParent

/-! ## Behind one place, and behind exits -/

end Assembly

/-- The entry right behind a place. -/
def Entry.under : Place → Option Condition → Entry
  | .source, _ => .root
  | .node p, none => .after p
  | .node p, some (.labeled label) => .when p label
  | .node p, some .otherwise => .otherwise p

namespace Assembly

variable {s : Assembly} {stem : String}

theorem Fine.exists_under (hs : s.Fine) (hstem : stem ∈ stems) {a : Place} {c : Option Condition}
    (ha : a.rank ≤ s.dag.size) (hsource : a = .source → c = none)
    (hroom : ∀ u, a = .node u → ∀ k v, s.dag.Enters (.node u) k v → Beside k c) :
    ∃ s', s.node stem (.under a c) [] = .ok (s.dag.size, s') ∧ s.Gained [(a, c)] s' := by
  cases a with
  | source =>
    obtain rfl := hsource rfl
    exact hs.exists_node hstem .root [] List.nodup_nil fun l hl => by cases hl
  | node u =>
    have hlinks : (Entry.under (.node u) c).linksWith [] = [⟨u, c⟩] := by
      rcases c with _ | _ | _ <;> rfl
    obtain ⟨m, hm⟩ := Dag.get?_eq_some_iff.mpr ha
    have hnode := hs.exists_node hstem (.under (.node u) c) []
    rw [hlinks] at hnode
    refine hnode (List.nodup_singleton _) fun l hl => ?_
    obtain rfl := List.mem_singleton.mp hl
    exact ⟨m, hm, hs.sound.takesChild hm (hroom u rfl)⟩

theorem Fine.exists_joining (hs : s.Fine) (hstem : stem ∈ stems) {exits : List Nat}
    (hne : exits ≠ []) (hnodup : exits.Nodup)
    (hfree : ∀ x ∈ exits, s.Free (.node x)) :
    ∃ s', s.node stem .root exits = .ok (s.dag.size, s') ∧ s.Gained (plainFrom exits) s' := by
  have hlinks : Entry.root.linksWith exits = exits.map fun p => ⟨p, none⟩ := rfl
  have hins : insOf (Entry.root.linksWith exits) = plainFrom exits := by
    rw [hlinks, insOf, if_neg (by simpa using hne), List.map_map]
    rfl
  have hnode := hs.exists_node hstem .root exits
  rw [hins, hlinks] at hnode
  refine hnode (by simpa [Function.comp_def] using hnodup) fun l hl => ?_
  obtain ⟨x, hx, rfl⟩ := List.mem_map.mp hl
  obtain ⟨hlt, hnone⟩ := hfree x hx
  obtain ⟨m, hm⟩ := Dag.get?_eq_some_iff.mpr hlt
  exact ⟨m, hm, hs.sound.takesChild hm fun k v hv => absurd hv (hnone x rfl k v)⟩

end Assembly
end Fragment
end BatchFlow

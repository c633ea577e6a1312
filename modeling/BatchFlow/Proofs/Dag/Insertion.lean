import BatchFlow.Proofs.Workflow.Coherent

/-!
# Which nodes are inserted

A node is inserted exactly if it has a name and every parent that it declares is there and has room
for it. Then it comes behind the nodes that there are, it is entered behind the other children of
each of its parents, and nothing else changes. Otherwise the dag is left as it was.

The parents are asked twice, all of them before the first link is made and each one again when its
link is made. By then the dag has changed, but only at the parents that were linked before. A builder
never holds a parent twice, whatever was called on it, so the second answer is the first one.
-/

namespace BatchFlow
namespace Node

/-- There is room for one more child. The children of a node are all plain or all conditional, and
at most one of them is the default. -/
def TakesChild (n : Node) : Option Condition → Prop
  | none => n.conditionalChildren = []
  | some c => n.plainChildren = [] ∧
      ¬ (c = .otherwise ∧ ∃ b ∈ n.conditionalChildren, b.condition = .otherwise)

theorem check_eq_ok_iff {n : Node} {c : Option Condition} :
    n.check c = .ok () ↔ n.TakesChild c := by
  cases c with
  | none => exact check_none_eq_ok_iff
  | some c =>
    have hdefault : ∀ c : Condition, c.isDefault = true ↔ c = .otherwise := by
      intro c
      cases c <;> simp [Condition.isDefault]
    rw [check_some_eq_ok_iff, defaultChild?_eq_none_iff, List.countP_eq_zero, TakesChild]
    simp only [hdefault, not_and, not_exists]

end Node

namespace Dag

/-- The node has a name, and every parent that it declares is there and has room for it. -/
def Admits (d : Dag) (spec : NodeSpec) : Prop :=
  spec.name ≠ none ∧
    ∀ l ∈ spec.links, ∃ m, d.get? l.parent = some m ∧ m.TakesChild l.condition

/-- The second dag has one node more, behind all nodes of the first one and behind the other children
of each of its parents. -/
structure Grows (d : Dag) (spec : NodeSpec) (action : Action) (d' : Dag) : Prop where
  size_eq : d'.size = d.size + 1
  new : ∃ name, spec.name = some name ∧ d'.get? d.size = some
    { id := d.size, name, action, handler := spec.handler
      plainParents := spec.plainParents, conditionalParents := spec.conditionalParents
      plainChildren := [], conditionalChildren := [] }
  plain : ∀ p ∈ spec.plainParents, ∃ m, d.get? p = some m ∧
    d'.get? p = some { m with plainChildren := m.plainChildren ++ [d.size] }
  conditional : ∀ b ∈ spec.conditionalParents, ∃ m, d.get? b.node = some m ∧ d'.get? b.node =
    some { m with conditionalChildren := m.conditionalChildren ++ [⟨d.size, b.condition⟩] }
  other : ∀ i : Nat, i < d.size → i ∉ spec.plainParents →
    i ∉ spec.conditionalParents.map Branch.node → d'.get? i = d.get? i

theorem checkLink_eq_ok_iff_takesChild {d : Dag} {l : Link} :
    d.checkLink l = .ok () ↔ ∃ m, d.get? l.parent = some m ∧ m.TakesChild l.condition := by
  simp only [checkLink_eq_ok_iff, Node.check_eq_ok_iff]

/-! ## Linking -/

/-- The second dag has a child more at the parent of each link. -/
structure Linked (d : Dag) (v : NodeId) (links : List Link) (d' : Dag) : Prop where
  size_eq : d'.size = d.size
  parent : ∀ l ∈ links, ∃ m, d.get? l.parent = some m ∧
    d'.get? l.parent = some (m.withChild v l.condition)
  other : ∀ i : Nat, i ∉ links.map Link.parent → d'.get? i = d.get? i

theorem get?_link {d d' : Dag} {v : NodeId} {l : Link} (h : d.link v l = .ok d') :
    (∃ m, d.get? l.parent = some m ∧ d'.get? l.parent = some (m.withChild v l.condition)) ∧
      ∀ i : Nat, i ≠ l.parent → d'.get? i = d.get? i := by
  obtain ⟨m, hm, -, rfl⟩ := link_eq_ok_iff.mp h
  exact ⟨⟨m, hm, List.getElem?_set_self (lt_size hm)⟩,
    fun i hi => List.getElem?_set_ne (Ne.symm hi)⟩

theorem linked_of_foldlM {links : List Link} {d d' : Dag} {v : NodeId}
    (hnodup : (links.map Link.parent).Nodup) (h : links.foldlM (link v) d = .ok d') :
    d.Linked v links d' := by
  induction links generalizing d with
  | nil =>
    cases h
    exact ⟨rfl, by simp, fun _ _ => rfl⟩
  | cons l rest ih =>
    rw [List.map_cons, List.nodup_cons] at hnodup
    rw [List.foldlM_cons] at h
    obtain ⟨d₁, hfirst, hrest⟩ := bind_eq_ok_iff.mp h
    obtain ⟨⟨m, hm, hm₁⟩, hsame⟩ := get?_link hfirst
    have hlinked := ih hnodup.2 hrest
    constructor
    case size_eq => rw [hlinked.size_eq, size_link hfirst]
    case parent =>
      intro l' hl'
      rcases List.mem_cons.mp hl' with rfl | hl'
      -- No later link touches the parent of the first one.
      · exact ⟨m, hm, (hlinked.other l'.parent hnodup.1).trans hm₁⟩
      · have hne : l'.parent ≠ l.parent := fun heq => hnodup.1 (heq ▸ List.mem_map_of_mem hl')
        obtain ⟨m', hm', hlast⟩ := hlinked.parent l' hl'
        exact ⟨m', (hsame _ hne).symm.trans hm', hlast⟩
    case other =>
      intro i hi
      rw [List.map_cons, List.mem_cons, not_or] at hi
      rw [hlinked.other i hi.2, hsame i hi.1]

/-- Once all links have been checked, each of them is made when its turn comes. -/
theorem exists_linkInPlace {d : Dag} {links done rest : List Link} {l : Link} (v : NodeId)
    (hnodup : (links.map Link.parent).Nodup) (hcheck : ∀ l ∈ links, d.checkLink l = .ok ())
    (hlinks : links = done ++ l :: rest) :
    ∃ d₁ d₂, done.forM (linkInPlace v) d = .ok () d₁ ∧ linkInPlace v l d₁ = .ok () d₂ := by
  subst hlinks
  rw [List.map_append, List.map_cons, List.nodup_append] at hnodup
  obtain ⟨hdone, -, hapart⟩ := hnodup
  obtain ⟨d₁, hfold, hplace⟩ :=
    exists_links hdone (fun x hx => hcheck x (List.mem_append_left _ hx)) v
  have hsame : d₁.get? l.parent = d.get? l.parent :=
    (linked_of_foldlM hdone hfold).other _ fun hmem => hapart _ hmem _ List.mem_cons_self rfl
  have hl : d₁.checkLink l = .ok () := by
    have hfirst := hcheck l (List.mem_append_right _ List.mem_cons_self)
    rw [checkLink_eq_ok_iff] at hfirst ⊢
    rwa [hsame]
  obtain ⟨d₂, hlink⟩ := exists_link hl v
  exact ⟨d₁, d₂, hplace, by rw [linkInPlace, hlink]⟩

/-! ## Inserting -/

theorem admits_of_insert {d d' : Dag} {spec : NodeSpec} {action : Action} {id : NodeId}
    (h : d.insert spec action = .ok (id, d')) : d.Admits spec := by
  cases hname : spec.name with
  | none =>
    unfold insert at h
    rw [hname] at h
    cases h
  | some name =>
    rw [insert_of_name hname] at h
    obtain ⟨_, hcheck, -⟩ := bind_eq_ok_iff.mp h
    exact ⟨by simp [hname], fun l hl => checkLink_eq_ok_iff_takesChild.mp (forM_eq_ok hcheck l hl)⟩

theorem forM_of_forall {d : Dag} {links : List Link} (h : ∀ l ∈ links, d.checkLink l = .ok ()) :
    links.forM d.checkLink = .ok () := by
  induction links with
  | nil => rfl
  | cons l rest ih =>
    exact bind_eq_ok_iff.mpr ⟨(), h l List.mem_cons_self,
      ih fun x hx => h x (List.mem_cons_of_mem _ hx)⟩

theorem Linked.grows {d linked : Dag} {spec : NodeSpec} {name : String}
    (h : d.Linked d.size spec.links linked) (hname : spec.name = some name) (action : Action) :
    d.Grows spec action ⟨linked.nodes ++ [d.appended spec name action]⟩ := by
  have hold : ∀ i : Nat, i < d.size →
      (⟨linked.nodes ++ [d.appended spec name action]⟩ : Dag).get? i = linked.get? i :=
    fun i hi => List.getElem?_append_left (show i < linked.size from h.size_eq.symm ▸ hi)
  have hlinks : ∀ p c, (d.appended spec name action).HasParent p c ↔ ⟨p, c⟩ ∈ spec.links :=
    fun _ _ => appended_hasParent
  have hparent : ∀ p c, (d.appended spec name action).HasParent p c → ∃ m, d.get? p = some m ∧
      (⟨linked.nodes ++ [d.appended spec name action]⟩ : Dag).get? p =
        some (m.withChild d.size c) := by
    intro p c hp
    obtain ⟨m, hm, hlast⟩ := h.parent _ ((hlinks p c).mp hp)
    exact ⟨m, hm, (hold _ (lt_size hm)).trans hlast⟩
  constructor
  case size_eq =>
    have := h.size_eq
    simp only [size] at this
    simp [size, this]
  case new => exact ⟨name, hname, get?_append.mpr (.inr ⟨h.size_eq.symm, rfl⟩)⟩
  case plain => exact fun p hp => hparent p none hp
  case conditional => exact fun b hb => hparent b.node (some b.condition) hb
  case other =>
    intro i hi hplain hcond
    refine (hold i hi).trans (h.other i fun hmem => ?_)
    obtain ⟨⟨p, c⟩, hl, rfl⟩ := List.mem_map.mp hmem
    have hp := (hlinks p c).mpr hl
    cases c with
    | none => exact hplain hp
    | some c => exact hcond (List.mem_map_of_mem (f := Branch.node) hp)

/-- What a node has declared stays as it is. -/
theorem Grows.kept {d d' : Dag} {spec : NodeSpec} {action : Action} (h : d.Grows spec action d')
    {i : Nat} {m : Node} (hm : d.get? i = some m) : ∃ m', d'.get? i = some m' ∧
      m'.name = m.name ∧ m'.handler = m.handler ∧ m'.plainParents = m.plainParents ∧
      m'.conditionalParents = m.conditionalParents := by
  have hone : ∀ m₀, d.get? i = some m₀ → m₀ = m := fun m₀ h₀ => Option.some.inj (h₀.symm.trans hm)
  by_cases hplain : i ∈ spec.plainParents
  · obtain ⟨m₀, hm₀, hm'⟩ := h.plain i hplain
    obtain rfl := hone m₀ hm₀
    exact ⟨_, hm', rfl, rfl, rfl, rfl⟩
  · by_cases hcond : i ∈ spec.conditionalParents.map Branch.node
    · obtain ⟨b, hb, rfl⟩ := List.mem_map.mp hcond
      obtain ⟨m₀, hm₀, hm'⟩ := h.conditional b hb
      obtain rfl := hone m₀ hm₀
      exact ⟨_, hm', rfl, rfl, rfl, rfl⟩
    · exact ⟨m, (h.other i (lt_size hm) hplain hcond).trans hm, rfl, rfl, rfl, rfl⟩

/-- A node whose parents are all different is inserted if the dag admits it. -/
theorem exists_insert {d : Dag} {spec : NodeSpec} (action : Action)
    (hnodup : (spec.links.map Link.parent).Nodup) (h : d.Admits spec) :
    ∃ d', d.insert spec action = .ok (d.size, d') ∧ d.Grows spec action d' := by
  obtain ⟨hname, hroom⟩ := h
  obtain ⟨name, hname⟩ := Option.ne_none_iff_exists'.mp hname
  have hcheck : ∀ l ∈ spec.links, d.checkLink l = .ok () :=
    fun l hl => checkLink_eq_ok_iff_takesChild.mpr (hroom l hl)
  obtain ⟨linked, hfold, -⟩ := exists_links hnodup hcheck d.size
  refine ⟨_, ?_, (linked_of_foldlM hnodup hfold).grows hname action⟩
  rw [insert_of_name hname, forM_of_forall hcheck, ok_bind, hfold]
  rfl

end Dag

/-- A node that the dag admits is built, and any other is refused and changes nothing. It is refused
before the dag changes, since all links are made once they have been checked. -/
theorem Builder.build_all_or_nothing {k : Kind} {b : Builder k}
    (hb : Artifact.Reached (.builder k b)) (d : Dag) :
    (d.Admits b.node.spec → ∃ d', b.build d = .ok (d.size, d') ∧
      b.buildInPlace d = .ok d.size d' ∧ d.Grows b.node.spec b.action d') ∧
    (¬ d.Admits b.node.spec → ∃ e, b.build d = .error e ∧ b.buildInPlace d = .error e d) ∧
    ((∀ l ∈ b.node.spec.links, d.checkLink l = .ok ()) →
      ∀ done l rest, b.node.spec.links = done ++ l :: rest →
        ∃ d₁ d₂, done.forM (Dag.linkInPlace d.size) d = .ok () d₁ ∧
          Dag.linkInPlace d.size l d₁ = .ok () d₂) := by
  have hnodup : (b.node.spec.links.map Link.parent).Nodup :=
    (NodeDraft.map_parent_links b.node).symm ▸ hb.sound
  have hplace : Dag.insertInPlace b.node.spec b.action d = _ := Dag.insertInPlace_eq d hnodup
  refine ⟨fun hadmits => ?_, fun hadmits => ?_, fun hcheck done l rest hlinks =>
    Dag.exists_linkInPlace d.size hnodup hcheck hlinks⟩
  · obtain ⟨d', hinsert, hgrows⟩ := Dag.exists_insert b.action hnodup hadmits
    rw [hinsert] at hplace
    exact ⟨d', hinsert, hplace, hgrows⟩
  · cases hinsert : d.insert b.node.spec b.action with
    | ok built => exact absurd (Dag.admits_of_insert hinsert) hadmits
    | error e =>
      rw [hinsert] at hplace
      exact ⟨e, hinsert, hplace⟩

/-- A node under a plain parent and a conditional one. -/
def Builder.mended : Builder (.custom "none") where
  node := { name := ⟨some "mended", true⟩, plainParents := [4, 0]
            conditionalParents := [⟨3, .labeled "torn"⟩] }
  draft := Kind.draft (.custom "none")

theorem Builder.mended_reached : Artifact.Reached (.builder (.custom "none") mended) := by
  have hmade : (Script.plainNode "mended"
      [(4, none), (3, some (.labeled "torn")), (0, none)]).2.foldlM Builder.apply
      (.new (.custom "none")) = .ok mended := rfl
  exact Script.reached_foldlM_apply (.new _) hmade

/-- The third link of one node is made after two others have changed the dag. Another node, whose
second parent has conditional children, is refused. -/
theorem Builder.mended_built_torn_refused :
    (∃ d', mended.buildInPlace .nightly = .ok 6 d' ∧
      Dag.nightly.Grows mended.node.spec mended.action d') ∧
    (∃ e, torn.buildInPlace .nightly = .error e .nightly) ∧
    ∃ d₁ d₂, [⟨4, none⟩, ⟨0, none⟩].forM (Dag.linkInPlace 6) .nightly = .ok () d₁ ∧
      Dag.linkInPlace 6 ⟨3, some (.labeled "torn")⟩ d₁ = .ok () d₂ := by
  have hinsert : Dag.nightly.insert mended.node.spec mended.action = .ok (6, _) := rfl
  obtain ⟨hbuilt, -, hlinked⟩ := build_all_or_nothing mended_reached .nightly
  obtain ⟨hmade, hrefused, -⟩ := build_all_or_nothing torn_reached .nightly
  obtain ⟨d', -, hplace, hgrows⟩ := hbuilt (Dag.admits_of_insert hinsert)
  have hroom : ¬ Dag.nightly.Admits torn.node.spec := by
    intro hadmits
    obtain ⟨d', hbuild, -⟩ := hmade hadmits
    cases hbuild
  obtain ⟨e, -, herror⟩ := hrefused hroom
  exact ⟨⟨d', hplace, hgrows⟩, ⟨e, herror⟩,
    hlinked (by decide) [⟨4, none⟩, ⟨0, none⟩] ⟨3, some (.labeled "torn")⟩ [] rfl⟩

end BatchFlow

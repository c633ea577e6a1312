import BatchFlow.Proofs.Dag.Edges

/-!
# Insertion in place

A dag may also be changed where it is. Then an insertion that fails half-way would leave the links
behind that it has made: some nodes would list a child that never came.

Checking all links before the first one is made rules this out only as far as no link that was made
spoils the check of another one. Links of different parents do not touch, so for a node whose
parents are all different, an insertion in place either does what `Dag.insert` does, or it fails
with the same error and has changed nothing.
-/

namespace BatchFlow
namespace Dag

/-- A change to a dag. When it fails, what it has done so far remains. -/
abbrev Change := EStateM BuildError Dag

/-- The dag that a change leaves behind, whether it fails or not. -/
def Change.leave {α : Type} (c : Change α) (d : Dag) : Dag :=
  match c d with
  | .ok _ d' => d'
  | .error _ d' => d'

/-- Registers a child with one of its parents. -/
def linkInPlace (child : NodeId) (l : Link) : Change Unit := fun d =>
  match d.link child l with
  | .ok d' => .ok () d'
  | .error e => .error e d

/-- Registers a node with its parents, one after the other, and appends it. -/
def insertInPlace (spec : NodeSpec) (action : Action) : Change NodeId :=
  match spec.name with
  | none => throw (.missingName .node)
  | some name => do
      let d ← get
      answer (spec.links.forM d.checkLink)
      spec.links.forM (linkInPlace d.size)
      modify fun linked => ⟨linked.nodes ++ [d.appended spec name action]⟩
      return d.size

/-! ## Links that do not touch -/

variable {d d' : Dag} {v : NodeId} {l l' : Link}

theorem checkLink_eq_ok_iff :
    d.checkLink l = .ok () ↔ ∃ n, d.get? l.parent = some n ∧ n.check l.condition = .ok () :=
  bind_eq_ok_iff.trans (exists_congr fun _ => and_congr_left fun _ => node_eq_ok_iff)

/-- A link that was checked can be made. -/
theorem exists_link (h : d.checkLink l = .ok ()) (v : NodeId) : ∃ d', d.link v l = .ok d' := by
  obtain ⟨n, hn, hcheck⟩ := checkLink_eq_ok_iff.mp h
  exact ⟨_, link_eq_ok_iff.mpr ⟨n, hn, hcheck, rfl⟩⟩

/-- A link changes nothing for another parent. -/
theorem checkLink_of_link (h : d.link v l = .ok d') (hne : l'.parent ≠ l.parent) :
    d'.checkLink l' = d.checkLink l' := by
  obtain ⟨n, -, -, rfl⟩ := link_eq_ok_iff.mp h
  have hget : (⟨d.nodes.set l.parent (n.withChild v l.condition)⟩ : Dag).get? l'.parent =
      d.get? l'.parent := List.getElem?_set_ne hne.symm
  simp only [checkLink, node, hget]

/-- Links of different parents that were all checked are all made. -/
theorem exists_links {links : List Link} (hnodup : (links.map Link.parent).Nodup)
    (hcheck : ∀ l ∈ links, d.checkLink l = .ok ()) (v : NodeId) :
    ∃ d', links.foldlM (Dag.link v) d = .ok d' ∧ links.forM (linkInPlace v) d = .ok () d' := by
  induction links generalizing d with
  | nil => exact ⟨d, rfl, rfl⟩
  | cons l rest ih =>
    rw [List.map_cons, List.nodup_cons] at hnodup
    obtain ⟨d₁, hlink⟩ := exists_link (hcheck l List.mem_cons_self) v
    have hrest : ∀ l' ∈ rest, d₁.checkLink l' = .ok () := by
      intro l' hl'
      have hne : l'.parent ≠ l.parent := fun heq => hnodup.1 (heq ▸ List.mem_map_of_mem hl')
      rw [checkLink_of_link hlink hne]
      exact hcheck l' (List.mem_cons_of_mem _ hl')
    obtain ⟨d', hfold, hplace⟩ := ih hnodup.2 hrest
    have hfirst : linkInPlace v l d = .ok () d₁ := by rw [linkInPlace, hlink]
    refine ⟨d', ?_, ?_⟩
    · rw [List.foldlM_cons, hlink]
      exact hfold
    · show (linkInPlace v l >>= fun _ => rest.forM (linkInPlace v)) d = .ok () d'
      rw [bind_of_ok hfirst]
      exact hplace

theorem insert_of_name {spec : NodeSpec} {name : String} (h : spec.name = some name)
    (action : Action) : d.insert spec action = do
      spec.links.forM d.checkLink
      let linked ← spec.links.foldlM (Dag.link d.size) d
      return (d.size, ⟨linked.nodes ++ [d.appended spec name action]⟩) := by
  unfold insert
  rw [h]
  rfl

/-- An insertion in place inserts the node or leaves the dag as it was. -/
theorem insertInPlace_eq {spec : NodeSpec} {action : Action} (d : Dag)
    (hnodup : (spec.links.map Link.parent).Nodup) :
    insertInPlace spec action d = match d.insert spec action with
      | .ok (id, d') => .ok id d'
      | .error e => .error e d := by
  unfold insertInPlace
  cases hname : spec.name with
  | none =>
    unfold insert
    rw [hname]
    rfl
  | some name =>
    have hget : (get : Change Dag) d = .ok d d := rfl
    simp only
    rw [insert_of_name hname, bind_of_ok hget]
    cases hcheck : spec.links.forM d.checkLink with
    | error e => rfl
    | ok _ =>
      obtain ⟨linked, hfold, hplace⟩ := exists_links hnodup (forM_eq_ok hcheck) d.size
      have hchecked : answer (Except.ok () : Except BuildError Unit) d = .ok () d := rfl
      rw [bind_of_ok hchecked, bind_of_ok hplace, hfold]
      rfl

end Dag
end BatchFlow

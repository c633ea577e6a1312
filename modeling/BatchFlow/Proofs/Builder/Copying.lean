import BatchFlow.Proofs.Builder.Discipline
import BatchFlow.Proofs.Dag.Edges

/-!
# Copies of builders

A node that a builder has made can be the start of another builder, and so can the settings of an
action. Nothing is lost on the way: settings that go into a draft come out as they were, and a node
holds all that its builder knew. What does not come along is that fields have been modified.
-/

namespace BatchFlow

/-! ### Settings -/

/-- The properties that were copied are there again, in their order. -/
theorem Configuration.Draft.build_ofConfiguration (c : Configuration) :
    (ofConfiguration c).build = c := by
  apply Dict.ext
  simp [build, ofConfiguration, List.filterMap_map, Function.comp_def, WriteOnce.ofDefault]

namespace Kind

open Configuration.Draft (build_ofConfiguration)

theorem settingsOf_draftOf (k : Kind) (s : k.Settings) : k.settingsOf (k.draftOf s) = s := by
  cases k with
  | email => rfl
  | fileSystem =>
    exact congrArg (fun c => { s with configuration := c }) (build_ofConfiguration s.configuration)
  | mapReduce =>
    exact congrArg (fun c => { s with configuration := c }) (build_ofConfiguration s.configuration)
  | shell =>
    exact congrArg (fun c => { s with configuration := c }) (build_ofConfiguration s.configuration)
  | subWorkflow =>
    exact congrArg (fun c => { s with configuration := c }) (build_ofConfiguration s.configuration)
  | custom name => rfl

end Kind

/-! ### Nodes -/

namespace Dag

theorem size_foldlM_link {links : List Link} {d d' : Dag} {v : NodeId}
    (h : links.foldlM (link v) d = .ok d') : d'.size = d.size := by
  induction links generalizing d with
  | nil =>
    cases h
    rfl
  | cons l rest ih =>
    rw [List.foldlM_cons] at h
    obtain ⟨linked, hlinked, hrest⟩ := bind_eq_ok_iff.mp h
    rw [ih hrest, size_link hlinked]

/-- A node holds all that was known of it, so a draft that repeats it says the same. -/
theorem exists_of_insert {d d' : Dag} {spec : NodeSpec} {action : Action} {id : NodeId}
    (h : d.insert spec action = .ok (id, d')) :
    ∃ n, d'.get? id = some n ∧ (NodeDraft.ofNode n).spec = spec ∧ n.action = action := by
  obtain ⟨name, linked, hname, -, hlinked, rfl, rfl⟩ := of_insert_eq_ok h
  refine ⟨d.appended spec name action, ?_, ?_, rfl⟩
  · exact get?_append.mpr (.inr ⟨(size_foldlM_link hlinked).symm, rfl⟩)
  · obtain ⟨name', plain, conditional, handler⟩ := spec
    cases hname
    rfl

end Dag

/-! ### Builders -/

namespace Builder

variable {k : Kind}

/-- A builder that says what another one says, with every field open to one modification. -/
structure Renews (copy b : Builder k) : Prop where
  spec_eq : copy.node.spec = b.node.spec
  action_eq : copy.action = b.action
  disciplined : (slots k).Disciplined copy

theorem action_draftOf (node : NodeDraft) (s : k.Settings) :
    ({ node, draft := k.draftOf s } : Builder k).action = ⟨k, s⟩ :=
  congrArg (Action.mk k) (k.settingsOf_draftOf s)

/-- Whatever has been done to a builder, a builder that starts from its node says the same as it
does, one that starts from its settings has the same action and nothing else, and a builder of
another kind does not start from its node. -/
theorem copies_renew (b : Builder k) :
    (∀ d id d', b.build d = .ok (id, d') → ∃ n, d'.get? id = some n ∧
      (∃ copy, ofNode k n = .ok copy ∧ copy.Renews b) ∧
      ∀ l, l ≠ k → ofNode l n = .error (.actionKindMismatch n.name l.label k.label)) ∧
    (ofSettings k (k.settingsOf b.draft)).Renews { draft := b.draft } := by
  constructor
  · intro d id d' hb
    obtain ⟨n, hn, hspec, haction⟩ := Dag.exists_of_insert hb
    have hcopy := ofNode_eq_ok_iff.mpr ⟨_, Action.settingsAs?_self haction, rfl⟩
    refine ⟨n, hn, ⟨_, hcopy, hspec, action_draftOf _ _, ?_⟩, fun l hl => ?_⟩
    · exact ((slots_lawful k).settles (Started.ofNode haction hcopy).slot_eq).toDisciplined
    · have hkind : n.action.kind = k := congrArg Action.kind haction
      rw [ofNode, Action.settingsAs?_of_ne (hkind ▸ hl.symm), hkind]
  · have hcopy := Started.ofSettings (k.settingsOf b.draft)
    exact ⟨rfl, action_draftOf _ _, ((slots_lawful k).settles hcopy.slot_eq).toDisciplined⟩

def loaded : Dag :=
  ⟨[{ id := 0, name := "load", plainParents := [], conditionalParents := [], handler := none
      action := ⟨.email, {}⟩ }]⟩

/-- What was removed does not come back, and what was added keeps its place. -/
theorem exported_copied :
    ∃ d' n, exported.build loaded = .ok (1, d') ∧ d'.get? 1 = some n ∧
      (∃ copy, ofNode .shell n = .ok copy ∧ copy.Renews exported) ∧
      ofNode .email n = .error (.actionKindMismatch n.name "email" "shell") ∧
      (exported.action.configuration?.map (·.entries)) =
        some [("queue", "low"), ("depth", "2"), ("retries", "3")] := by
  have hbuild : exported.build loaded = .ok (1, _) := rfl
  obtain ⟨n, hn, hcopy, hother⟩ := exported.copies_renew.1 _ _ _ hbuild
  exact ⟨_, n, hbuild, hn, hcopy, hother .email (by decide), rfl⟩

end Builder
end BatchFlow

import BatchFlow.Proofs.Document.Landing
import BatchFlow.Proofs.Graph.Reached

/-!
# Where no transition leads

A walk through decision joins leads to another vertex, or it comes to a decision join that has no
child, or it runs in a circle. The search for the name behind a vertex gives up after as many hops
as the graph has vertices and one more. It gives up for a reason: a walk that is still among decision
joins then is in a circle. So the bound refuses nothing that an endless search would find, and the
error speaks of the decision join that is to blame.
-/

namespace BatchFlow
namespace Graph

/-- A decision join that has no child. -/
def DeadEnd (g : Graph) (id : VertexId) : Prop :=
  ∃ x, g.get? id = some x ∧ x.role = .decisionJoin ∧ x.child? = none

/-- The walk from a vertex through decision joins comes to one that has no child. -/
def RunsDry (g : Graph) (id : VertexId) : Prop :=
  ∃ last, Relation.ReflTransGen g.Passes id last ∧ g.DeadEnd last

/-- The walk from a vertex through decision joins comes to one that it comes to again. -/
def RunsInCircle (g : Graph) (id : VertexId) : Prop :=
  ∃ last, Relation.ReflTransGen g.Passes id last ∧ Relation.TransGen g.Passes last last

/-- The search for the name behind a vertex finds out how the walk from there goes. -/
structure Settles (g : Graph) (id : VertexId) : Prop where
  ok_iff : ∀ name, g.targetName id = .ok name ↔ ∃ x, g.Lands id x ∧ x.name = name
  dangling_iff : (∃ name, g.targetName id = .error (.danglingVertex name)) ↔
    g.RunsDry id ∨ g.RunsInCircle id
  /-- There is no other error. The one that there is names a decision join on the walk, one without a
  child or one in the circle. -/
  error : ∀ e, g.targetName id = .error e → ∃ last x, Relation.ReflTransGen g.Passes id last ∧
    g.get? last = some x ∧ e = .danglingVertex x.name ∧
    (g.DeadEnd last ∨ Relation.TransGen g.Passes last last)

section

variable {g : Graph} {hops : Nat} {id last : VertexId} {x : Vertex}

/-! ## A walk that ends -/

theorem LandsAfter.of_passes {next : VertexId} (h : g.LandsAfter hops id x)
    (hpass : g.Passes id next) : ∃ less, less < hops ∧ g.LandsAfter less next x := by
  obtain ⟨y, hy, hjoin, hnext⟩ := hpass
  cases h with
  | here hx hrole =>
    rw [Option.some.inj (hy.symm.trans hx)] at hjoin
    exact absurd hjoin hrole
  | @pass less _ _ _ _ hx _ hchild hrest =>
    rw [Option.some.inj (hy.symm.trans hx), hchild] at hnext
    exact ⟨less, Nat.lt_succ_self less, Option.some.inj hnext ▸ hrest⟩

theorem LandsAfter.of_transGen (h : g.LandsAfter hops id x)
    (hway : Relation.TransGen g.Passes id last) :
    ∃ less, less < hops ∧ g.LandsAfter less last x := by
  induction hway with
  | single hpass => exact h.of_passes hpass
  | tail _ hpass ih =>
    obtain ⟨less, hless, hmid⟩ := ih
    obtain ⟨least, hleast, hlast⟩ := hmid.of_passes hpass
    exact ⟨least, Nat.lt_trans hleast hless, hlast⟩

theorem Lands.of_reflTransGen (h : g.Lands id x)
    (hway : Relation.ReflTransGen g.Passes id last) : g.Lands last x := by
  obtain ⟨hops, h⟩ := h
  rcases Relation.reflTransGen_iff_eq_or_transGen.mp hway with rfl | hway
  · exact ⟨hops, h⟩
  · obtain ⟨less, -, hlast⟩ := h.of_transGen hway
    exact ⟨less, hlast⟩

theorem Lands.not_runsDry (h : g.Lands id x) : ¬ g.RunsDry id := by
  rintro ⟨last, hway, y, hy, hjoin, hnone⟩
  obtain ⟨hops, hlast⟩ := h.of_reflTransGen hway
  cases hlast with
  | here hx hrole =>
    rw [Option.some.inj (hy.symm.trans hx)] at hjoin
    exact hrole hjoin
  | pass hx _ hchild _ =>
    rw [Option.some.inj (hy.symm.trans hx), hchild] at hnone
    cases hnone

/-- A circle would lead from a vertex to itself in fewer hops than are left there. -/
theorem Lands.not_runsInCircle (h : g.Lands id x) : ¬ g.RunsInCircle id := by
  rintro ⟨last, hway, hcircle⟩
  obtain ⟨hops, hlast⟩ := h.of_reflTransGen hway
  obtain ⟨less, hless, hagain⟩ := hlast.of_transGen hcircle
  exact Nat.ne_of_lt hless (hagain.unique hlast).1

/-! ## A search that fails -/

theorem of_passJoins_error {v : Vertex} {bound : Nat} {e : DocumentError} (hg : Wired g.vertices)
    (hv : g.get? id = some v) (h : g.passJoins bound v = .error e) :
    ∃ last x, g.get? last = some x ∧ e = .danglingVertex x.name ∧
      (Relation.ReflTransGen g.Passes id last ∧ g.DeadEnd last ∨ g.PassesOn bound id last) := by
  induction bound generalizing id v with
  | zero => exact ⟨id, v, hv, (Except.error.inj h).symm, .inr (.stay id)⟩
  | succ bound ih =>
    unfold passJoins at h
    by_cases hjoin : v.role = .decisionJoin
    · rw [if_pos hjoin] at h
      cases hnext : v.child? with
      | none =>
        simp only [hnext] at h
        exact ⟨id, v, hv, (Except.error.inj h).symm, .inl ⟨.refl, v, hv, hjoin, hnext⟩⟩
      | some next =>
        have hpass : g.Passes id next := ⟨v, hv, hjoin, hnext⟩
        obtain ⟨w, hw⟩ := exists_get?_iff.mpr
          (hg.child_lt id v hv next (Vertex.mem_children_of_child? hnext))
        simp only [hnext, vertex_eq_ok_iff.mpr hw] at h
        obtain ⟨last, x, hlast, he, hway⟩ := ih hw h
        exact ⟨last, x, hlast, he, hway.imp (fun hdry => ⟨.head hpass hdry.1, hdry.2⟩)
          (.pass hpass)⟩
    · rw [if_neg hjoin] at h
      cases h

/-- A search that fails has come to a dead end or has gone so far that it is in a circle. -/
theorem of_targetName_error {e : DocumentError} (hg : Wired g.vertices) (hid : id < g.size)
    (h : g.targetName id = .error e) : ∃ last x, Relation.ReflTransGen g.Passes id last ∧
      g.get? last = some x ∧ e = .danglingVertex x.name ∧
      (g.DeadEnd last ∨ Relation.TransGen g.Passes last last) := by
  obtain ⟨v, hv⟩ := exists_get?_iff.mpr hid
  unfold targetName at h
  rw [vertex_eq_ok_iff.mpr hv] at h
  obtain ⟨last, x, hlast, he, ⟨hway, hdead⟩ | hway⟩ := of_passJoins_error hg hv h
  · exact ⟨last, x, hway, hlast, he, .inl hdead⟩
  · have hcircle := hway.circles_of_size_le (exists_get?_iff.mp ⟨x, hlast⟩) (Nat.le_succ g.size)
    exact ⟨last, x, hway.leads, hlast, he, .inr hcircle⟩

end

/-- However many decision joins there are in a row, the name behind them is found; an error comes of
a decision join without a child or of a circle, and of nothing else. -/
theorem Reached.targetName_settles {g : Graph} (hg : g.Reached) {id : VertexId}
    (hid : id < g.size) : g.Settles id where
  ok_iff _ := targetName_eq_ok_iff
  dangling_iff := by
    constructor
    · rintro ⟨name, hname⟩
      obtain ⟨last, -, hway, -, -, hdead | hcircle⟩ :=
        of_targetName_error hg.sound.wired hid hname
      · exact .inl ⟨last, hway, hdead⟩
      · exact .inr ⟨last, hway, hcircle⟩
    · intro hends
      cases htarget : g.targetName id with
      | ok name =>
        obtain ⟨x, hx, -⟩ := targetName_eq_ok_iff.mp htarget
        exact absurd hends (not_or.mpr ⟨hx.not_runsDry, hx.not_runsInCircle⟩)
      | error e =>
        obtain ⟨-, x, -, -, rfl, -⟩ := of_targetName_error hg.sound.wired hid htarget
        exact ⟨x.name, rfl⟩
  error _ := of_targetName_error hg.sound.wired hid

/-- Two decision joins before the end, one before a circle of two, and one without a child. -/
def detourEdits : List Edit :=
  [.addDecisionJoin "near", .addDecisionJoin "far", .addFinish, .addDecisionJoin "entry",
    .addDecisionJoin "round", .addDecisionJoin "about", .addDecisionJoin "blind", .connect 0 1 none,
    .connect 1 2 none, .connect 3 4 none, .connect 4 5 none, .connect 5 4 none]

def detour : Graph :=
  match ({ name := "detour" } : Graph).performAll detourEdits with
  | .ok g => g
  | .error _ => {}

theorem detour_reached : detour.Reached := by
  have hmade : ({ name := "detour" } : Graph).performAll detourEdits = .ok detour := rfl
  exact (Reached.empty "detour").performAll hmade

/-- The end is found behind two decision joins; the circle and the blind end are not waited for. -/
theorem detour_settles : detour.Reached ∧ 0 < detour.size ∧ 3 < detour.size ∧ 6 < detour.size ∧
    detour.targetName 0 = .ok "end" ∧
    (∃ name, detour.targetName 3 = .error (.danglingVertex name)) ∧
    (∃ name, detour.targetName 6 = .error (.danglingVertex name)) := by
  have hend : detour.Lands 0 { id := 2, name := "end", role := .finish, parents := [1] } :=
    ⟨2, .pass rfl rfl rfl (.pass rfl rfl rfl (.here rfl (by decide)))⟩
  have hcircle : detour.RunsInCircle 3 :=
    ⟨4, .single ⟨_, rfl, rfl, rfl⟩, .tail (.single ⟨_, rfl, rfl, rfl⟩) ⟨_, rfl, rfl, rfl⟩⟩
  have hdry : detour.RunsDry 6 := ⟨6, .refl, _, rfl, rfl, rfl⟩
  refine ⟨detour_reached, by decide, by decide, by decide, ?_, ?_, ?_⟩
  · exact ((detour_reached.targetName_settles (by decide)).ok_iff "end").mpr ⟨_, hend, rfl⟩
  · exact (detour_reached.targetName_settles (by decide)).dangling_iff.mpr (.inr hcircle)
  · exact (detour_reached.targetName_settles (by decide)).dangling_iff.mpr (.inl hdry)

example : detour.targetName 3 = .error (.danglingVertex "about") := by decide

end Graph
end BatchFlow

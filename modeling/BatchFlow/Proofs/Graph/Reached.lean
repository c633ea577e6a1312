import BatchFlow.Lowering
import BatchFlow.Proofs.Graph.Arena

/-!
# What edits reach

Graphs come about from an empty graph or from a workflow, and any edits may follow. What holds of
all of them is proved by one induction over the edits: the vertices fit together, and the three
places that the graph remembers are those of its only start, end and kill vertex, which have the
names that are kept for them.
-/

namespace BatchFlow
namespace Graph

/-- The graphs that edits make. An edit that is refused changes nothing and needs no case of its
own. -/
inductive Reached : Graph → Prop
  | empty (name : String) : Reached { name }
  | lowered {w : Workflow} {g : Graph} : Graph.ofWorkflow w = .ok g → Reached g
  | edit {g g' : Graph} {e : Edit} : Reached g → g.perform e = .ok g' → Reached g'

/-- The place is that of the only vertex with a role, if there is one. -/
def Places (vs : List Vertex) (role : Role) (place : Option VertexId) : Prop :=
  ∀ i : Nat, place = some i ↔ ∃ x, vs[i]? = some x ∧ x.role = role

/-- What holds of the graphs that edits make. -/
structure Sound (g : Graph) : Prop where
  wired : Wired g.vertices
  start : Places g.vertices .start g.start
  finish : Places g.vertices .finish g.finish
  kill : Places g.vertices .kill g.kill

theorem Places.unique {vs : List Vertex} {role : Role} {place : Option VertexId}
    (h : Places vs role place) {x y : Vertex} (hx : x ∈ vs) (hy : y ∈ vs) (hxrole : x.role = role)
    (hyrole : y.role = role) : x = y := by
  obtain ⟨i, hi⟩ := List.mem_iff_getElem?.mp hx
  obtain ⟨j, hj⟩ := List.mem_iff_getElem?.mp hy
  have hplace : some i = some j :=
    ((h i).mpr ⟨x, hi, hxrole⟩).symm.trans ((h j).mpr ⟨y, hj, hyrole⟩)
  rw [← Option.some.inj hplace] at hj
  exact Option.some.inj (hi.symm.trans hj)

/-! ## A new vertex -/

section push

variable {vs : List Vertex} {role : Role} {place : Option VertexId} (new : Vertex)

theorem Places.push_of_ne (h : Places vs role place) (hne : new.role ≠ role) :
    Places (vs ++ [new]) role place := by
  intro i
  rw [h i]
  constructor
  · rintro ⟨x, hx, hrole⟩
    exact ⟨x, (List.getElem?_append_left (List.getElem?_eq_some_iff.mp hx).1).trans hx, hrole⟩
  · rintro ⟨x, hx, hrole⟩
    refine ⟨x, ?_, hrole⟩
    rcases getElem?_concat_eq_some hx with hx | ⟨-, rfl⟩
    · exact hx
    · exact absurd hrole hne

theorem Places.push (h : Places vs role none) (hrole : new.role = role) :
    Places (vs ++ [new]) role (some vs.length) := by
  intro i
  rw [Option.some.injEq]
  constructor
  · rintro rfl
    exact ⟨new, List.getElem?_concat_length, hrole⟩
  · rintro ⟨x, hx, hx'⟩
    rcases getElem?_concat_eq_some hx with hx | ⟨rfl, -⟩
    · cases (h i).mpr ⟨x, hx, hx'⟩
    · rfl

end push

theorem Places.linked {vs : List Vertex} {role : Role} {place : Option VertexId}
    (h : Places vs role place) (p c : VertexId) (condition : Option Condition) :
    Places (linked vs p c condition) role place := by
  intro i
  rw [h i, getElem?_linked]
  constructor
  · rintro ⟨x, hx, hrole⟩
    exact ⟨relinked p c condition i x, by rw [hx]; rfl, (role_relinked ..).trans hrole⟩
  · rintro ⟨x, hx, hrole⟩
    obtain ⟨u, hu, rfl⟩ := Option.map_eq_some_iff.mp hx
    exact ⟨u, hu, (role_relinked ..).symm.trans hrole⟩

/-! ## Any edits -/

theorem sound_empty (name : String) : Sound { name } := by
  have hplaces : ∀ role, Places [] role none := by
    intro role i
    simp
  exact ⟨.empty, hplaces _, hplaces _, hplaces _⟩

namespace Sound

variable {g g' : Graph} (h : g.Sound)
include h

/-- A vertex that may occur any number of times. -/
theorem push {role : Role} (name : String) (hs : role ≠ .start) (hf : role ≠ .finish)
    (hk : role ≠ .kill) : (g.push name role).Sound :=
  ⟨h.wired.push name role, h.start.push_of_ne _ hs, h.finish.push_of_ne _ hf,
    h.kill.push_of_ne _ hk⟩

theorem addStart : g.addStart.Sound := by
  unfold Graph.addStart
  cases hplace : g.start with
  | some _ => exact h
  | none =>
    exact ⟨h.wired.push startName .start, (hplace ▸ h.start).push _ rfl,
      h.finish.push_of_ne _ (by simp), h.kill.push_of_ne _ (by simp)⟩

theorem addFinish : g.addFinish.Sound := by
  unfold Graph.addFinish
  cases hplace : g.finish with
  | some _ => exact h
  | none =>
    exact ⟨h.wired.push finishName .finish, h.start.push_of_ne _ (by simp),
      (hplace ▸ h.finish).push _ rfl, h.kill.push_of_ne _ (by simp)⟩

theorem addKill : g.addKill.Sound := by
  unfold Graph.addKill
  cases hplace : g.kill with
  | some _ => exact h
  | none =>
    exact ⟨h.wired.push killName .kill, h.start.push_of_ne _ (by simp),
      h.finish.push_of_ne _ (by simp), (hplace ▸ h.kill).push _ rfl⟩

theorem perform {e : Edit} (he : g.perform e = .ok g') : g'.Sound := by
  cases e with
  | addStart =>
    cases he
    exact h.addStart
  | addFinish =>
    cases he
    exact h.addFinish
  | addKill =>
    cases he
    exact h.addKill
  | connect p c condition =>
    obtain ⟨x, y, hx, hy, hchild, hparent, rfl⟩ := connect_eq_ok_iff.mp he
    exact ⟨h.wired.linked hx hy hchild hparent, h.start.linked p c condition,
      h.finish.linked p c condition, h.kill.linked p c condition⟩
  | _ =>
    cases he
    exact h.push _ (by simp) (by simp) (by simp)

end Sound

/-- What every edit keeps is kept by edits in a row. -/
theorem performAll_invariant {P : Graph → Prop}
    (hstep : ∀ {g g' : Graph} {e : Edit}, P g → g.perform e = .ok g' → P g') {edits : List Edit}
    {g g' : Graph} (h : P g) (he : g.performAll edits = .ok g') : P g' := by
  induction edits generalizing g with
  | nil =>
    cases he
    exact h
  | cons e rest ih =>
    rw [performAll_cons, bind_eq_ok_iff] at he
    obtain ⟨next, hnext, hrest⟩ := he
    exact ih (hstep h hnext) hrest

/-- What holds of empty graphs and is kept by every edit holds of all graphs that edits make. -/
theorem Reached.invariant {P : Graph → Prop} (hempty : ∀ name, P { name })
    (hstep : ∀ {g g' : Graph} {e : Edit}, P g → g.perform e = .ok g' → P g') {g : Graph}
    (h : g.Reached) : P g := by
  induction h with
  | empty name => exact hempty name
  | lowered hw =>
    obtain ⟨taken, -, hw⟩ := bind_eq_ok_iff.mp hw
    obtain ⟨r, -, hg⟩ := bind_eq_ok_iff.mp hw
    exact performAll_invariant hstep (hempty _) hg
  | edit _ he ih => exact hstep ih he

theorem Reached.sound {g : Graph} (h : g.Reached) : g.Sound :=
  h.invariant sound_empty fun hg he => hg.perform he

theorem Reached.performAll {g g' : Graph} {edits : List Edit} (h : g.Reached)
    (he : g.performAll edits = .ok g') : g'.Reached :=
  performAll_invariant .edit h he

/-! ## Names of structural vertices -/

end Graph

/-- The name that is kept for a role. -/
def Role.ownName? : Role → Option String
  | .start => some Graph.startName
  | .finish => some Graph.finishName
  | .kill => some Graph.killName
  | _ => none

namespace Graph

/-- A vertex whose role has a name kept for it has that name. -/
def OwnNames (g : Graph) : Prop :=
  ∀ x ∈ g.vertices, ∀ name, x.role.ownName? = some name → x.name = name

namespace OwnNames

variable {g g' : Graph} (h : g.OwnNames)
include h

theorem push {name : String} {role : Role} (hname : ∀ own, role.ownName? = some own → name = own) :
    (g.push name role).OwnNames := by
  intro x hx
  rcases List.mem_append.mp hx with hx | hx
  · exact h x hx
  · rw [List.mem_singleton.mp hx]
    exact hname

theorem perform {e : Edit} (he : g.perform e = .ok g') : g'.OwnNames := by
  cases e with
  | addStart | addFinish | addKill =>
    cases he
    simp only [Graph.addStart, Graph.addFinish, Graph.addKill]
    split
    · exact h
    · exact h.push fun _ => Option.some.inj
  | connect p c condition =>
    obtain ⟨-, -, -, -, -, -, rfl⟩ := connect_eq_ok_iff.mp he
    intro x hx
    obtain ⟨i, hi⟩ := List.mem_iff_getElem?.mp hx
    rw [getElem?_linked, Option.map_eq_some_iff] at hi
    obtain ⟨u, hu, rfl⟩ := hi
    rw [role_relinked, name_relinked]
    exact h u (List.mem_of_getElem? hu)
  | _ =>
    cases he
    exact h.push fun _ hown => by cases hown

end OwnNames

theorem Reached.ownNames {g : Graph} (h : g.Reached) : g.OwnNames :=
  h.invariant (fun _ _ hx => absurd hx List.not_mem_nil) fun hg he => hg.perform he

/-! ## A graph made by hand -/

/-- Two steps with one handler in the branches of a decision, and a second decision join behind the
one where they meet. -/
def backupEdits : List Edit :=
  let alarm : Handler := { serial := 0, name := "alarm", action := ⟨.custom "page", none⟩ }
  let step : Task := { source := 0, action := ⟨.custom "copy", none⟩, handler := some alarm }
  [.addStart, .addFinish, .addKill, .addDecision "choose", .addTask "all" step,
    .addTask "changed" step, .addDecisionJoin "meet", .addDecisionJoin "leave",
    .connect 0 3 none, .connect 3 4 (some (.labeled "sunday")), .connect 3 5 (some .otherwise),
    .connect 4 6 none, .connect 5 6 none, .connect 6 7 none, .connect 7 1 none]

def backup : Graph :=
  match ({ name := "backup" } : Graph).performAll backupEdits with
  | .ok g => g
  | .error _ => {}

theorem backup_reached : backup.Reached := by
  have hmade : ({ name := "backup" } : Graph).performAll backupEdits = .ok backup := rfl
  exact (Reached.empty "backup").performAll hmade

end Graph
end BatchFlow

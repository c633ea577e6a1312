import BatchFlow.Proofs.Document.Placing
import BatchFlow.Proofs.Graph.Reached
import Mathlib.Data.List.Dedup
import Mathlib.Data.List.Perm.Basic

/-!
# Documents say what graphs say

A document that a graph was written to holds the kill element and then what the vertices call for,
in their order. Apart from the element of each handler it has one element per vertex that needs one,
so its actions are counted by the tasks and the handlers of the graph.
-/

namespace BatchFlow

namespace Vertex

/-- Whether the vertex is a step of the workflow. -/
def isTask (v : Vertex) : Bool :=
  match v.role with
  | .task _ => true
  | _ => false

/-- Whether the vertex becomes an element. -/
def isWritten (v : Vertex) : Bool :=
  match v.role with
  | .start | .finish | .kill | .decisionJoin => false
  | .decision | .fork | .join | .task _ => true

end Vertex

def Element.isAction (e : Element) : Bool := e.action?.isSome

theorem Document.length_actions (d : Document) :
    d.actions.length = d.elements.countP Element.isAction := by
  rw [Document.actions, List.length_filterMap_eq_countP]
  simp only [Option.isSome_map]
  rfl

section

variable {t : Translator} {g : Graph} {finish kill : String} {earlier vs : List Vertex} {v : Vertex}
  {els : List Element}

/-! ## Elements by vertices and handlers -/

/-- The names of these elements are those of the vertices that become one and of the handlers, and
their actions are the tasks and the handlers. -/
structure Tallies (vs : List Vertex) (hs : List Handler) (els : List Element) : Prop where
  names : (els.map Element.name).Perm ((vs.filter Vertex.isWritten).map Vertex.name ++
    hs.map Handler.name)
  actions : els.countP Element.isAction = vs.countP Vertex.isTask + hs.length

theorem Tallies.append {vs' : List Vertex} {hs hs' : List Handler} {els' : List Element}
    (h : Tallies vs hs els) (h' : Tallies vs' hs' els') :
    Tallies (vs ++ vs') (hs ++ hs') (els ++ els') := by
  constructor
  · simp only [List.filter_append, List.map_append]
    refine (h.names.append h'.names).trans ?_
    simp only [List.append_assoc]
    exact (List.perm_append_comm_assoc ..).append_left _
  · simp only [List.countP_append, List.length_append, h.actions, h'.actions]
    omega

/-- The handlers that get their element with this vertex. -/
theorem Vertex.Calls.exists_handlers (hv : v.Calls t g finish kill earlier els) :
    ∃ hs : List Handler, hs.Nodup ∧ (∀ h, h ∈ hs ↔ v.handler? = some h ∧ ¬ h.On earlier) ∧
      Tallies [v] hs els := by
  have hplain : (v.handler? = none) → ∀ h, h ∈ ([] : List Handler) ↔
      v.handler? = some h ∧ ¬ h.On earlier := by
    intro hnone h
    simp [hnone]
  cases hv with
  | silent hrole =>
    refine ⟨[], List.nodup_nil, hplain ?_, ?_, ?_⟩ <;>
      rcases hrole with hrole | hrole | hrole | hrole <;>
      simp [Vertex.handler?, Vertex.isWritten, Vertex.isTask, hrole]
  | decision hrole hcases hnext hdefault =>
    refine ⟨[], List.nodup_nil, hplain ?_, ?_, ?_⟩ <;>
      simp [Vertex.handler?, Vertex.isWritten, Vertex.isTask, Element.isAction, Element.action?,
        hrole]
  | fork hrole hne hpaths =>
    refine ⟨[], List.nodup_nil, hplain ?_, ?_, ?_⟩ <;>
      simp [Vertex.handler?, Vertex.isWritten, Vertex.isTask, Element.isAction, Element.action?,
        hrole]
  | join hrole hnext htarget =>
    refine ⟨[], List.nodup_nil, hplain ?_, ?_, ?_⟩ <;>
      simp [Vertex.handler?, Vertex.isWritten, Vertex.isTask, Element.isAction, Element.action?,
        hrole]
  | @task task payload guards ok error hrole hpayload hok hguards =>
    have hhandler : v.handler? = task.handler := by simp [Vertex.handler?, hrole]
    rw [hhandler] at hplain ⊢
    generalize task.handler = handler at hplain hguards ⊢
    cases hguards with
    | unguarded =>
      refine ⟨[], List.nodup_nil, hplain rfl, ?_, ?_⟩ <;>
        simp [Vertex.isWritten, Vertex.isTask, Element.isAction, Element.action?, hrole]
    | @again h hon =>
      refine ⟨[], List.nodup_nil, ?_, ?_, ?_⟩
      · intro k
        simp only [List.not_mem_nil, false_iff, Option.some.injEq, not_and, not_not]
        rintro rfl
        exact hon
      all_goals simp [Vertex.isWritten, Vertex.isTask, Element.isAction, Element.action?, hrole]
    | @first h payload' hnew hpayload' =>
      refine ⟨[h], List.nodup_singleton h, ?_, ?_, ?_⟩
      · intro k
        simp only [List.mem_singleton, Option.some.injEq, eq_comm (a := k)]
        exact ⟨fun heq => ⟨heq, heq ▸ hnew⟩, And.left⟩
      · simpa [Vertex.isWritten, hrole] using List.Perm.swap ..
      · simp [List.countP_cons, Vertex.isTask, Element.isAction, Element.action?, hrole]

theorem Tallies.perm {hs hs' : List Handler} (h : Tallies vs hs els) (hperm : hs.Perm hs') :
    Tallies vs hs' els :=
  ⟨h.names.trans ((hperm.map _).append_left _), hperm.length_eq ▸ h.actions⟩

/-- Every handler that none of the earlier vertices has gets its element once. -/
theorem Graph.Written.exists_handlers (hvs : g.Written t finish kill earlier vs els) :
    ∃ hs : List Handler, hs.Nodup ∧ (∀ h, h ∈ hs ↔ h.On vs ∧ ¬ h.On earlier) ∧
      Tallies vs hs els := by
  induction hvs with
  | nil earlier => exact ⟨[], List.nodup_nil, by simp [Handler.On], .refl _, rfl⟩
  | @cons earlier rest v els more hv _ ih =>
    obtain ⟨hs, hnodup, hmem, htally⟩ := hv.exists_handlers
    obtain ⟨hs', hnodup', hmem', htally'⟩ := ih
    refine ⟨hs ++ hs', List.nodup_append'.mpr ⟨hnodup, hnodup', ?_⟩, fun h => ?_,
      htally.append htally'⟩
    · intro h hh hh'
      exact ((hmem' h).mp hh').2 (Handler.on_concat_iff.mpr (.inr ((hmem h).mp hh).1))
    · have hcons : h.On (v :: rest) ↔ v.handler? = some h ∨ h.On rest := by simp [Handler.On]
      rw [List.mem_append, hmem, hmem', hcons, Handler.on_concat_iff]
      tauto

theorem Handler.mem_dedup_iff {k : Handler} :
    k ∈ (vs.filterMap Vertex.handler?).dedup ↔ k.On vs := by
  rw [List.mem_dedup, List.mem_filterMap]
  rfl

/-- With no vertices before, these are all handlers that there are. -/
theorem Graph.Written.tallies (hvs : g.Written t finish kill [] vs els) :
    Tallies vs (vs.filterMap Vertex.handler?).dedup els := by
  obtain ⟨hs, hnodup, hmem, htally⟩ := hvs.exists_handlers
  refine htally.perm ((List.perm_ext_iff_of_nodup hnodup (List.nodup_dedup _)).mpr fun k => ?_)
  rw [hmem, Handler.mem_dedup_iff]
  simp [Handler.On]

end

/-! ## The whole document -/

/-- These are the start, the end and the kill vertex. -/
structure Graph.Framed (g : Graph) (start finish kill : Vertex) : Prop where
  start : start ∈ g.vertices ∧ start.role = .start
  finish : finish ∈ g.vertices ∧ finish.role = .finish
  kill : kill ∈ g.vertices ∧ kill.role = .kill

namespace Document

def killElement (t : Translator) (kill : Vertex) : Element :=
  ⟨kill.name, .kill t.settings.killMessage⟩

/-- The document says what the graph says: it begins where the start leads, its elements are the
kill element and what the vertices become, and no name is used twice. -/
structure Tells (d : Document) (t : Translator) (g : Graph) (start finish kill : Vertex)
    (els : List Element) : Prop where
  framed : g.Framed start finish kill
  name_eq : d.name = g.name
  begins : ∃ next, start.child? = some next ∧ g.LeadsTo next d.start
  finish_eq : d.finish = finish.name
  elements_eq : d.elements = killElement t kill :: els
  written : g.Written t finish.name kill.name [] g.vertices els
  nodup : (claimed finish.name (killElement t kill :: els)).Nodup

variable {t : Translator} {g : Graph} {start finish kill : Vertex} {first : String}
  {els : List Element}

/-- The names in use: those of the end and of the kill element, of the vertices that become an element,
and of the handlers. -/
theorem claimed_perm (hvs : g.Written t finish.name kill.name [] g.vertices els) :
    (claimed finish.name (killElement t kill :: els)).Perm
      (finish.name :: kill.name :: ((g.vertices.filter Vertex.isWritten).map Vertex.name ++
        (g.vertices.filterMap Vertex.handler?).dedup.map Handler.name)) :=
  (hvs.tallies.names.cons kill.name).cons finish.name

theorem structural_eq_ok_iff {place : Option VertexId} {role : Role} {name : String} {x : Vertex}
    (h : Graph.Places g.vertices role place) :
    structural g place name = .ok x ↔ x ∈ g.vertices ∧ x.role = role := by
  constructor
  · intro hx
    cases hplace : place with
    | none => simp [structural, hplace] at hx
    | some i =>
      rw [hplace, structural, mapError_eq_ok_iff, Graph.vertex_eq_ok_iff] at hx
      obtain ⟨y, hy, hrole⟩ := (h i).mp hplace
      rw [Option.some.inj (hx.symm.trans hy)]
      exact ⟨List.mem_of_getElem? hy, hrole⟩
  · rintro ⟨hx, hrole⟩
    obtain ⟨i, hi⟩ := List.mem_iff_getElem?.mp hx
    rw [(h i).mpr ⟨x, hi, hrole⟩, structural, mapError_eq_ok_iff, Graph.vertex_eq_ok_iff]
    exact hi

/-- The emission that the vertices are placed into. -/
def opening (t : Translator) (finish kill : Vertex) : Except DocumentError Emission :=
  ({} : Emission).claim finish.name >>= fun e => e.place (killElement t kill)

theorem opening_ends : Ends (Emission.Holds · finish.name (·.On []) [killElement t kill])
    (Clashes (claimed finish.name [killElement t kill])) (opening t finish kill) := by
  have h : ({ names := [finish.name] } : Emission).Holds finish.name (·.On []) [] :=
    ⟨rfl, rfl, List.nodup_singleton _, by simp [Handler.On]⟩
  exact h.place _

/-- With its structural vertices there, the graph is written as follows. -/
theorem ofGraph_eq (hg : g.Sound) (hproblems : g.problems = [])
    (hframed : g.Framed start finish kill) :
    ofGraph t g = opening t finish kill >>= fun e =>
      (match start.child? with
        | some next => g.targetName next
        | none => throw (.danglingVertex start.name)) >>= fun first =>
      g.vertices.foldlM (Emission.placeVertex t g finish.name kill.name) e >>= fun e =>
      .ok { name := g.name, start := first, elements := e.elements, finish := finish.name } := by
  unfold ofGraph opening
  rw [hproblems, (structural_eq_ok_iff hg.start).mpr hframed.start,
    (structural_eq_ok_iff hg.finish).mpr hframed.finish,
    (structural_eq_ok_iff hg.kill).mpr hframed.kill]
  simp only [ok_bind, bind_assoc]
  cases start.child? <;> rfl

theorem admits_of_sound (hg : g.Sound) : ∀ v ∈ g.vertices,
    v.role.Admits v.parents.length (v.arcs.map Arc.condition) := by
  intro v hv
  obtain ⟨i, hi⟩ := List.mem_iff_getElem?.mp hv
  exact hg.wired.admits i v hi

/-- A graph whose vertices call for something is written, unless a name is used twice. -/
theorem ofGraph_ends (hg : g.Sound) (hproblems : g.problems = [])
    (hframed : g.Framed start finish kill) {next : VertexId} (hnext : start.child? = some next)
    (hfirst : g.LeadsTo next first)
    (hvs : g.Written t finish.name kill.name [] g.vertices els) :
    Ends (Document.Tells · t g start finish kill els)
      (Clashes (claimed finish.name (killElement t kill :: els))) (ofGraph t g) := by
  rw [ofGraph_eq hg hproblems hframed, hnext]
  simp only [Graph.targetName_eq_ok_iff.mpr hfirst, ok_bind]
  refine (opening_ends.mono (fun _ => id) (Clashes.mono (claimed_sublist ..))).bind fun e he => ?_
  refine (he.placeAll (admits_of_sound hg) hvs).bind fun e' he' => ?_
  exact ⟨hframed, rfl, ⟨next, hnext, hfirst⟩, rfl, he'.elements_eq, hvs, he'.nodup⟩

theorem missing_eq_nil_iff {place : Option VertexId} {role : Role} {name : String}
    (h : Graph.Places g.vertices role place) :
    (if place.isSome then [] else [GraphError.missingVertex name]) = [] ↔
      ∃ x ∈ g.vertices, x.role = role := by
  cases place with
  | none =>
    simp only [Option.isSome_none, Bool.false_eq_true, if_false, List.cons_ne_nil, false_iff]
    rintro ⟨x, hx, hrole⟩
    obtain ⟨i, hi⟩ := List.mem_iff_getElem?.mp hx
    cases (h i).mpr ⟨x, hi, hrole⟩
  | some i =>
    obtain ⟨x, hx, hrole⟩ := (h i).mp rfl
    simpa using ⟨x, List.mem_of_getElem? hx, hrole⟩

/-- A graph is complete if it has its structural vertices and all decisions have a default. -/
theorem problems_eq_nil_iff (hg : g.Sound) : g.problems = [] ↔
    (∃ start finish kill, g.Framed start finish kill) ∧
      ∀ x ∈ g.vertices, x.role = .decision → x.hasDefault = true := by
  simp only [Graph.problems, List.append_eq_nil_iff, missing_eq_nil_iff hg.start,
    missing_eq_nil_iff hg.finish, missing_eq_nil_iff hg.kill, List.filterMap_eq_nil_iff]
  refine and_congr ⟨?_, ?_⟩ (forall₂_congr fun x _ => ?_)
  · rintro ⟨⟨⟨start, hstart⟩, finish, hfinish⟩, kill, hkill⟩
    exact ⟨start, finish, kill, hstart, hfinish, hkill⟩
  · rintro ⟨start, finish, kill, hframed⟩
    exact ⟨⟨⟨start, hframed.start⟩, finish, hframed.finish⟩, kill, hframed.kill⟩
  · simp

/-- A document that comes about tells what the graph says. -/
theorem exists_tells {d : Document} (hg : g.Sound) (hd : ofGraph t g = .ok d) :
    ∃ start finish kill els, d.Tells t g start finish kill els := by
  have hproblems : g.problems = [] := by
    cases hp : g.problems with
    | nil => rfl
    | cons problem rest =>
      rw [ofGraph, hp] at hd
      cases hd
  obtain ⟨start, finish, kill, hframed⟩ := ((problems_eq_nil_iff hg).mp hproblems).1
  have hd' := hd
  rw [ofGraph_eq hg hproblems hframed] at hd'
  obtain ⟨e, he, hd'⟩ := bind_eq_ok_iff.mp hd'
  obtain ⟨first, hfirst, hd'⟩ := bind_eq_ok_iff.mp hd'
  obtain ⟨e', he', -⟩ := bind_eq_ok_iff.mp hd'
  obtain ⟨els, hvs⟩ := (opening_ends.good_of_eq he).exists_written (admits_of_sound hg) he'
  cases hnext : start.child? with
  | none =>
    rw [hnext] at hfirst
    cases hfirst
  | some next =>
    rw [hnext, Graph.targetName_eq_ok_iff] at hfirst
    exact ⟨start, finish, kill, els,
      (ofGraph_ends hg hproblems hframed hnext hfirst hvs).good_of_eq hd⟩

end Document

/-- A written graph is told exactly: the document begins where the start leads, and its elements are
the kill element and what each vertex becomes, in order. Its actions are the tasks of the graph and
the handlers that they have. -/
theorem Graph.Reached.told_exactly {t : Translator} {g : Graph} {d : Document} (hg : g.Reached)
    (hd : Document.ofGraph t g = .ok d) :
    (∃ start finish kill els, d.Tells t g start finish kill els) ∧
      d.actions.length = g.vertices.countP Vertex.isTask +
        (g.vertices.filterMap Vertex.handler?).dedup.length := by
  obtain ⟨start, finish, kill, els, h⟩ := Document.exists_tells hg.sound hd
  refine ⟨⟨start, finish, kill, els, h⟩, ?_⟩
  rw [Document.length_actions, h.elements_eq, List.countP_cons, h.written.tallies.actions]
  rfl

/-- A translator that has a payload for the steps of the backup and for its handler. -/
def Translator.pager : Translator where
  mappings := Mappings.empty
    |>.register (.custom "copy") (fun _ => .ok (some (.other "copy" .null)))
    |>.register (.custom "page") (fun _ => .ok (some (.other "page" .null)))

def Document.backup : Document :=
  match Document.ofGraph .pager .backup with
  | .ok d => d
  | .error _ => { name := "", start := "", elements := [], finish := "" }

theorem Document.ofGraph_backup : Document.ofGraph .pager .backup = .ok Document.backup := rfl

theorem Document.backup_told_exactly : Graph.backup.Reached ∧
    Document.ofGraph .pager .backup = .ok Document.backup ∧
    (∃ start finish kill els, Document.backup.Tells .pager .backup start finish kill els) ∧
      Document.backup.actions.length = Graph.backup.vertices.countP Vertex.isTask +
        (Graph.backup.vertices.filterMap Vertex.handler?).dedup.length :=
  ⟨Graph.backup_reached, ofGraph_backup, Graph.backup_reached.told_exactly ofGraph_backup⟩

example : Document.backup.actions.map Prod.fst = ["alarm", "all", "changed"] := by decide

end BatchFlow

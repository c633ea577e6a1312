import BatchFlow.Proofs.Document.Closed
import BatchFlow.Proofs.Graph.Edges

/-!
# Graphs that are ready to be written

Whether a graph becomes a document comes out while its elements are placed, vertex by vertex, with
the names and the handlers that there are so far. The answer does not depend on the order of the
vertices. Each of them is ready or is not, whatever comes before it, and a name that is used twice
is claimed twice in any order.

A vertex is asked for its element whether or not anything leads to it. So decisions, forks, joins
and tasks have to be ready all over the graph, while a decision join may lead nowhere as long as no
other vertex leads to it.
-/

namespace BatchFlow

/-- The translator has a payload for the task of the vertex, if it has one, and for its handler. -/
def Translator.Covers (t : Translator) (x : Vertex) : Prop :=
  ∀ task, x.role = .task task → (∃ payload, t.mappings.map x.name task.action = .ok payload) ∧
    ∀ h, task.handler = some h → ∃ payload, t.mappings.map h.name h.action = .ok payload

/-- The vertex has the children that its role needs, every way out leads to a vertex that is no
decision join, and the translator has the payloads. -/
structure Vertex.Ready (t : Translator) (g : Graph) (x : Vertex) : Prop where
  has_default : x.role = .decision → ∃ a ∈ x.arcs, a.condition = some .otherwise
  has_child : x.role = .start ∨ x.role = .fork ∨ x.role = .join → x.children ≠ []
  lands : x.role = .start ∨ x.isWritten = true → ∀ c ∈ x.children, ∃ y, g.Lands c y
  covers : t.Covers x

/-- The names that the document of a graph would use. A handler is counted once, however many tasks
have it. -/
def Graph.usedNames (g : Graph) : List String :=
  finishName :: killName :: ((g.vertices.filter Vertex.isWritten).map Vertex.name ++
    (g.vertices.filterMap Vertex.handler?).dedup.map Handler.name)

/-- The graph has all that a document needs. -/
structure Graph.Ready (t : Translator) (g : Graph) : Prop where
  framed : ∃ start finish kill, g.Framed start finish kill
  vertices : ∀ x ∈ g.vertices, x.Ready t g
  names_nodup : g.usedNames.Nodup

variable {t : Translator} {g : Graph} {x : Vertex} {earlier vs : List Vertex} {els : List Element}
  {finish kill : String}

/-! ## Ready vertices call for something -/

namespace Vertex

theorem exists_default? (hdefault : ∃ a ∈ x.arcs, a.condition = some .otherwise) :
    ∃ next, x.default? = some next := by
  have hany := (hasDefault_iff x).mpr hdefault
  obtain ⟨a, ha⟩ := Option.isSome_iff_exists.mp (List.find?_isSome.mpr (List.any_eq_true.mp hany))
  exact ⟨a.target, Option.map_eq_some_iff.mpr ⟨a, ha, rfl⟩⟩

theorem exists_child? (hseq : x.role.isSequential = true) (hne : x.children ≠ []) :
    ∃ next, x.child? = some next := by
  rw [child?, if_pos hseq]
  exact ⟨_, List.head?_eq_some_head hne⟩

end Vertex

theorem Translator.exists_guards {handler : Option Handler} (kill : String)
    (earlier : List Vertex)
    (hcovers : ∀ h, handler = some h → ∃ payload, t.mappings.map h.name h.action = .ok payload) :
    ∃ guards error, t.Guards kill earlier handler guards error := by
  cases handler with
  | none => exact ⟨_, _, .unguarded⟩
  | some h =>
    by_cases hon : h.On earlier
    · exact ⟨_, _, .again hon⟩
    · obtain ⟨payload, hpayload⟩ := hcovers h rfl
      exact ⟨_, _, .first hon hpayload⟩

namespace Vertex.Ready

variable (h : x.Ready t g)
include h

theorem leads (hrole : x.role = .start ∨ x.isWritten = true) {c : VertexId} (hc : c ∈ x.children) :
    ∃ name, g.LeadsTo c name := by
  obtain ⟨y, hy⟩ := h.lands hrole c hc
  exact ⟨y.name, y, hy, rfl⟩

/-- A start or a join goes on. -/
theorem exists_next (hrole : x.role = .start ∨ x.role = .join) :
    ∃ next name, x.child? = some next ∧ g.LeadsTo next name := by
  have hseq : x.role.isSequential = true := by rcases hrole with hr | hr <;> rw [hr] <;> rfl
  obtain ⟨next, hnext⟩ := exists_child? hseq (h.has_child (hrole.imp_right .inr))
  obtain ⟨name, hname⟩ := h.leads (hrole.imp_right fun hr => by rw [isWritten, hr])
    (mem_children_of_child? hnext)
  exact ⟨next, name, hnext, hname⟩

theorem exists_calls (finish kill : String) (earlier : List Vertex) :
    ∃ els, x.Calls t g finish kill earlier els := by
  have hleads := fun (hwritten : x.isWritten = true) {c : VertexId} (hc : c ∈ x.children) =>
    h.leads (.inr hwritten) hc
  cases hrole : x.role with
  | start => exact ⟨[], .silent (.inl hrole)⟩
  | finish => exact ⟨[], .silent (.inr (.inl hrole))⟩
  | kill => exact ⟨[], .silent (.inr (.inr (.inl hrole)))⟩
  | decisionJoin => exact ⟨[], .silent (.inr (.inr (.inr hrole)))⟩
  | decision =>
    have hwritten : x.isWritten = true := by rw [isWritten, hrole]
    obtain ⟨cases, hcases⟩ : ∃ cases : List Case, List.Forall₂
        (fun way case => case.condition = way.1 ∧ g.LeadsTo way.2 case.target)
        x.labelled cases := by
      refine exists_forall₂ fun way hway => ?_
      obtain ⟨name, hname⟩ := hleads hwritten (mem_children_of_labelled hway)
      exact ⟨⟨name, way.1⟩, rfl, hname⟩
    obtain ⟨next, hnext⟩ := exists_default? (h.has_default hrole)
    obtain ⟨default, hdefault⟩ := hleads hwritten (mem_children_of_default? hnext)
    exact ⟨_, .decision hrole hcases hnext hdefault⟩
  | fork =>
    have hwritten : x.isWritten = true := by rw [isWritten, hrole]
    obtain ⟨paths, hpaths⟩ := exists_forall₂ fun c (hc : c ∈ x.children) => hleads hwritten hc
    have hne : x.arcs ≠ [] := fun hnil =>
      h.has_child (.inr (.inl hrole)) (List.map_eq_nil_iff.mpr hnil)
    exact ⟨_, .fork hrole hne hpaths⟩
  | join =>
    obtain ⟨next, target, hnext, htarget⟩ := h.exists_next (.inr hrole)
    exact ⟨_, .join hrole hnext htarget⟩
  | task task =>
    have hwritten : x.isWritten = true := by rw [isWritten, hrole]
    obtain ⟨⟨payload, hpayload⟩, hhandler⟩ := h.covers task hrole
    obtain ⟨guards, error, hguards⟩ := Translator.exists_guards kill earlier hhandler
    obtain ⟨ok, hok⟩ : ∃ ok, g.GoesOn finish x ok := by
      cases hnext : x.child? with
      | none => exact ⟨finish, .ends hnext⟩
      | some next =>
        obtain ⟨ok, hok⟩ := hleads hwritten (mem_children_of_child? hnext)
        exact ⟨ok, .along hnext hok⟩
    exact ⟨_, .task hrole hpayload hok hguards⟩

end Vertex.Ready

theorem Graph.exists_written (hvs : ∀ x ∈ vs, x.Ready t g) (finish kill : String)
    (earlier : List Vertex) : ∃ els, g.Written t finish kill earlier vs els := by
  induction vs generalizing earlier with
  | nil => exact ⟨[], .nil earlier⟩
  | cons x rest ih =>
    obtain ⟨els, hels⟩ := (hvs x List.mem_cons_self).exists_calls finish kill earlier
    obtain ⟨more, hmore⟩ := ih (fun y hy => hvs y (List.mem_cons_of_mem x hy)) (earlier ++ [x])
    exact ⟨els ++ more, .cons hels hmore⟩

/-! ## Vertices that call for something are ready -/

/-- A vertex with room for one child has no other than that one. -/
theorem Vertex.KeepsToRole.child?_of_mem (h : x.KeepsToRole) (hseq : x.role.isSequential = true)
    {c : VertexId} (hc : c ∈ x.children) : x.child? = some c := by
  have hone : x.children.length ≤ 1 := by
    refine h.one_child ?_
    cases hrole : x.role <;> simp_all [Role.isSequential]
  obtain ⟨next, hnext⟩ := List.length_eq_one_iff.mp
    (Nat.le_antisymm hone (List.length_pos_of_mem hc))
  rw [hnext, List.mem_singleton] at hc
  rw [child?, if_pos hseq, hnext, hc]
  rfl

theorem Graph.LeadsTo.lands {c : VertexId} {name : String} (h : g.LeadsTo c name) :
    ∃ y, g.Lands c y := by
  obtain ⟨y, hy, -⟩ := h
  exact ⟨y, hy⟩

/-- A vertex that calls for something is ready, apart from what the document tells elsewhere: the
start is followed at the beginning, and a handler gets its payload with the first task that has
it. -/
theorem Vertex.Calls.ready (h : x.Calls t g finish kill earlier els)
    (hadmits : x.role.Admits x.parents.length (x.arcs.map Arc.condition))
    (hstart : x.role = .start → ∃ next name, x.child? = some next ∧ g.LeadsTo next name)
    (hhandler : ∀ k, x.handler? = some k → ∃ payload, t.mappings.map k.name k.action = .ok payload) :
    x.Ready t g := by
  have honly : ∀ {next : VertexId} {name : String}, x.role.isSequential = true →
      x.child? = some next → g.LeadsTo next name → ∀ c ∈ x.children, ∃ y, g.Lands c y := by
    intro next name hseq hnext hname c hc
    have hchild := (keepsToRole_of_admits hadmits).child?_of_mem hseq hc
    rw [← Option.some.inj (hnext.symm.trans hchild)]
    exact hname.lands
  constructor
  case has_default =>
    intro hdecision
    cases h with
    | decision _ _ hnext _ =>
      obtain ⟨a, ha, -⟩ := Option.map_eq_some_iff.mp hnext
      have hany : x.hasDefault = true := List.any_eq_true.mpr ⟨a, List.mem_of_find?_eq_some ha,
        List.find?_some (p := fun a : Arc => a.condition.any Condition.isDefault) ha⟩
      exact (hasDefault_iff x).mp hany
    | _ => simp_all
  case has_child =>
    rintro (hrole | hrole | hrole)
    · obtain ⟨next, -, hnext, -⟩ := hstart hrole
      exact List.ne_nil_of_mem (mem_children_of_child? hnext)
    · cases h with
      | fork _ hne _ => exact fun hnil => hne (List.map_eq_nil_iff.mp hnil)
      | _ => simp_all
    · cases h with
      | join _ hnext _ => exact List.ne_nil_of_mem (mem_children_of_child? hnext)
      | _ => simp_all
  case lands =>
    rintro hrole c hc
    cases h with
    | silent hsilent =>
      have hr : x.role = .start := by
        rcases hrole with hr | hwritten
        · exact hr
        · rcases hsilent with hr | hr | hr | hr <;> simp [isWritten, hr] at hwritten
      obtain ⟨next, name, hnext, hname⟩ := hstart hr
      exact honly (by rw [hr]; rfl) hnext hname c hc
    | decision hr hcases hnext hdefault =>
      obtain ⟨a, ha, rfl⟩ := List.mem_map.mp hc
      obtain ⟨name, hname⟩ :=
        Emission.leads_of_decided (hr ▸ hadmits) hcases hnext hdefault ha
      exact hname.lands
    | fork _ _ hpaths =>
      obtain ⟨name, -, hname⟩ := exists_of_mem_left hpaths hc
      exact hname.lands
    | join hr hnext htarget => exact honly (by rw [hr]; rfl) hnext htarget c hc
    | task hr _ hok _ =>
      have hseq : x.role.isSequential = true := by rw [hr]; rfl
      cases hok with
      | along hnext hok => exact honly hseq hnext hok c hc
      | ends hnone =>
        have hchild := (keepsToRole_of_admits hadmits).child?_of_mem hseq hc
        cases hnone.symm.trans hchild
  case covers =>
    intro task hrole
    refine ⟨?_, fun k hk => hhandler k (by rw [handler?, hrole]; exact hk)⟩
    cases h with
    | task hr hpayload _ _ =>
      cases hrole.symm.trans hr
      exact ⟨_, hpayload⟩
    | _ => simp_all

theorem Graph.Written.exists_calls_of_mem (h : g.Written t finish kill earlier vs els)
    (hx : x ∈ vs) : ∃ before more, x.Calls t g finish kill before more := by
  induction h with
  | nil => cases hx
  | @cons earlier rest v more _ hv _ ih =>
    rcases List.mem_cons.mp hx with rfl | hx
    · exact ⟨earlier, more, hv⟩
    · exact ih hx

/-! ## The whole graph -/

theorem Graph.OwnNames.usedNames_eq {start finish kill : Vertex} (h : g.OwnNames)
    (hframed : g.Framed start finish kill) : g.usedNames = finish.name :: kill.name ::
      ((g.vertices.filter Vertex.isWritten).map Vertex.name ++
        (g.vertices.filterMap Vertex.handler?).dedup.map Handler.name) := by
  rw [h finish hframed.finish.1 finishName (by rw [hframed.finish.2]; rfl),
    h kill hframed.kill.1 killName (by rw [hframed.kill.2]; rfl)]
  rfl

theorem Document.Tells.ready {d : Document} {start finish kill : Vertex}
    (h : d.Tells t g start finish kill els) (hg : g.Sound) (hnames : g.OwnNames) : g.Ready t where
  framed := ⟨start, finish, kill, h.framed⟩
  vertices x hx := by
    obtain ⟨before, more, hcalls⟩ := h.written.exists_calls_of_mem hx
    refine hcalls.ready (admits_of_sound hg x hx) (fun hrole => ?_) fun k hk => ?_
    · obtain ⟨next, hnext, hfirst⟩ := h.begins
      rw [hg.start.unique hx h.framed.start.1 hrole h.framed.start.2]
      exact ⟨next, d.start, hnext, hfirst⟩
    · rcases h.written.exists_guard ⟨x, hx, hk⟩ with ⟨_, hnil, -⟩ | ⟨payload, hpayload, -⟩
      · exact absurd hnil List.not_mem_nil
      · exact ⟨payload, hpayload⟩
  names_nodup := by
    rw [hnames.usedNames_eq h.framed]
    exact (claimed_perm h.written).nodup_iff.mp h.nodup

/-- If all vertices are ready, only a name that is used twice can be in the way. -/
theorem Document.ofGraph_ends_of_ready {start finish kill : Vertex} (hg : g.Sound)
    (hframed : g.Framed start finish kill) (hvs : ∀ x ∈ g.vertices, x.Ready t g) :
    ∃ els, g.Written t finish.name kill.name [] g.vertices els ∧
      Ends (Document.Tells · t g start finish kill els)
        (Clashes (claimed finish.name (killElement t kill :: els))) (ofGraph t g) := by
  have hproblems : g.problems = [] := (problems_eq_nil_iff hg).mpr ⟨⟨_, _, _, hframed⟩,
    fun x hx hrole => (Vertex.hasDefault_iff x).mpr ((hvs x hx).has_default hrole)⟩
  obtain ⟨next, first, hnext, hfirst⟩ :=
    (hvs start hframed.start.1).exists_next (.inl hframed.start.2)
  obtain ⟨els, hels⟩ := Graph.exists_written hvs finish.name kill.name []
  exact ⟨els, hels, ofGraph_ends hg hproblems hframed hnext hfirst hels⟩

theorem Graph.Ready.exists_document (h : g.Ready t) (hg : g.Sound) (hnames : g.OwnNames) :
    ∃ d, Document.ofGraph t g = .ok d := by
  obtain ⟨start, finish, kill, hframed⟩ := h.framed
  obtain ⟨els, hels, hends⟩ := Document.ofGraph_ends_of_ready hg hframed h.vertices
  cases hd : Document.ofGraph t g with
  | ok d => exact ⟨d, rfl⟩
  | error e =>
    obtain ⟨name, -, htwice⟩ := hends.bad_of_eq hd
    have hnodup := h.names_nodup
    rw [hnames.usedNames_eq hframed, ← (Document.claimed_perm hels).nodup_iff] at hnodup
    exact absurd htwice (List.nodup_iff_forall_not_duplicate.mp hnodup name)

/-- Whatever edits made the graph and whatever payloads the translator has, the graph is written if
it is ready and refused if it is not. -/
theorem Graph.Reached.written_iff_ready (hg : g.Reached) (t : Translator) :
    (∃ d, Document.ofGraph t g = .ok d) ↔ g.Ready t := by
  constructor
  · rintro ⟨d, hd⟩
    obtain ⟨start, finish, kill, els, h⟩ := Document.exists_tells hg.sound hd
    exact h.ready hg.sound hg.ownNames
  · intro hready
    exact hready.exists_document hg.sound hg.ownNames

/-- Nothing leads to the stray vertex. As a decision join without a child it does no harm, as a join
without a child it is in the way. -/
theorem Graph.stray_decision_join_ready_stray_join_not :
    ((backup.push "stray" .decisionJoin).Reached ∧
      (backup.push "stray" .decisionJoin).Ready .pager) ∧
    (backup.push "stray" .join).Reached ∧ ¬ (backup.push "stray" .join).Ready .pager := by
  have hdecision : (backup.push "stray" .decisionJoin).Reached :=
    backup_reached.edit (e := .addDecisionJoin "stray") rfl
  have hjoin : (backup.push "stray" .join).Reached :=
    backup_reached.edit (e := .addJoin "stray") rfl
  refine ⟨⟨hdecision, (hdecision.written_iff_ready .pager).mp ⟨_, rfl⟩⟩, hjoin, fun hready => ?_⟩
  obtain ⟨d, hd⟩ := (hjoin.written_iff_ready .pager).mpr hready
  have hrefused : Document.ofGraph .pager (backup.push "stray" .join) =
    .error (.danglingVertex "stray") := rfl
  cases hd.symm.trans hrefused

end BatchFlow

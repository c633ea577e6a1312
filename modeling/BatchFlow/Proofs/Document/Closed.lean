import BatchFlow.Proofs.Document.Faithful

/-!
# Documents are closed

Every transition of a document leads to one of its elements or to the end. A transition follows an
edge of the graph, and no edge leads to the start or to the kill vertex, so on success a transition
leads to a vertex that has an element, or to the end; the elements of handlers and the kill element
are only reached on failure. That the names are told apart by being claimed once turns the vertex
behind a name into the element with this name.
-/

namespace BatchFlow

/-- Where the element goes unless an action fails. -/
def Element.successes (e : Element) : List String :=
  match e.body with
  | .decision cases default => cases.map Case.target ++ [default]
  | .fork paths => paths
  | .join target => [target]
  | .kill _ => []
  | .action _ ok _ => [ok]

/-- Where the element goes if an action fails. -/
def Element.failures (e : Element) : List String :=
  match e.body with
  | .action _ _ error => [error]
  | _ => []

/-- The transitions of a document, with that of its start. -/
def Document.targets (d : Document) : List String :=
  d.start :: d.elements.flatMap fun e => e.successes ++ e.failures

/-- The document, with this kill element, for a graph with these handlers, leads nowhere outside. -/
structure Document.Closed (d : Document) (g : Graph) (kill : String) : Prop where
  names_nodup : (d.elements.map Element.name).Nodup
  name_ne : ∀ e ∈ d.elements, e.name ≠ d.finish
  kill_first : ∃ message rest, d.elements = ⟨kill, .kill message⟩ :: rest ∧
    ∀ e ∈ rest, e.killMessage? = none
  reaches : ∀ target ∈ d.targets, target = d.finish ∨ ∃! e, e ∈ d.elements ∧ e.name = target
  start_proceeds : d.start ≠ kill ∧ ∀ h : Handler, h.On g.vertices → d.start ≠ h.name
  /-- An element that is no handler's stays clear of the kill element and of handlers. -/
  proceeds : ∀ e ∈ d.elements, (∀ h : Handler, h.On g.vertices → e.name ≠ h.name) →
    ∀ target ∈ e.successes, target ≠ kill ∧ ∀ h : Handler, h.On g.vertices → target ≠ h.name
  fails : ∀ e ∈ d.elements, ∀ target ∈ e.failures, target = kill ∨
    ∃ payload, ⟨target, .action payload kill kill⟩ ∈ d.elements

namespace Vertex

theorem mem_children_of_labelled {v : Vertex} {way : String × VertexId} (h : way ∈ v.labelled) :
    way.2 ∈ v.children := by
  obtain ⟨a, ha, hway⟩ := List.mem_filterMap.mp h
  obtain ⟨label, -, rfl⟩ := Option.map_eq_some_iff.mp hway
  exact List.mem_map_of_mem ha

theorem mem_children_of_default? {v : Vertex} {next : VertexId} (h : v.default? = some next) :
    next ∈ v.children := by
  obtain ⟨a, ha, rfl⟩ := Option.map_eq_some_iff.mp h
  exact List.mem_map_of_mem (List.mem_of_find?_eq_some ha)

end Vertex

/-! ## Where edges lead -/

namespace Graph.Sound

variable {g : Graph} (hg : g.Sound)
include hg

/-- No edge leads to the start or to the kill vertex. -/
theorem entered_role {v x : Vertex} {next : VertexId} (hv : v ∈ g.vertices)
    (hnext : next ∈ v.children) (hx : g.get? next = some x) :
    x.role ≠ .start ∧ x.role ≠ .kill := by
  obtain ⟨i, hi⟩ := List.mem_iff_getElem?.mp hv
  have hcount := hg.wired.count_eq i next v x hi hx
  have hpos : 0 < x.parents.count i := hcount ▸ List.count_pos_iff.mpr hnext
  have hlen : 0 < x.parents.length := Nat.lt_of_lt_of_le hpos List.count_le_length
  have hmax := (hg.wired.admits next x hx).1
  constructor <;> intro hrole <;> rw [hrole] at hmax
  · have := hmax 0 rfl
    omega
  · have := hmax 0 rfl
    omega

/-- An edge leads to the end or to a vertex that becomes an element. -/
theorem lands_role {hops : Nat} {v x : Vertex} {next : VertexId} (hv : v ∈ g.vertices)
    (hnext : next ∈ v.children) (h : g.LandsAfter hops next x) :
    x ∈ g.vertices ∧ (x.role = .finish ∨ x.isWritten = true) := by
  induction h generalizing v with
  | @here next x hx hjoin =>
    obtain ⟨hstart, hkill⟩ := hg.entered_role hv hnext hx
    refine ⟨List.mem_of_getElem? hx, ?_⟩
    cases hrole : x.role <;> simp_all [Vertex.isWritten]
  | @pass _ _ _ w _ hw _ hchild _ ih =>
    exact ih (List.mem_of_getElem? hw) (Vertex.mem_children_of_child? hchild)

end Graph.Sound

/-- The name is that of the end or of a vertex that becomes an element. -/
def Graph.Goal (g : Graph) (finish name : String) : Prop :=
  name = finish ∨ ∃ x ∈ g.vertices, x.isWritten = true ∧ x.name = name

section

variable {t : Translator} {g : Graph} {start finish kill v : Vertex} {earlier vs : List Vertex}
  {els : List Element} {el : Element}

theorem Graph.Sound.goal_of_leadsTo (hg : g.Sound) (hframed : g.Framed start finish kill)
    {next : VertexId} {name : String} (hv : v ∈ g.vertices) (hnext : next ∈ v.children)
    (h : g.LeadsTo next name) : g.Goal finish.name name := by
  obtain ⟨x, ⟨hops, hx⟩, rfl⟩ := h
  obtain ⟨hmem, hfinish | hwritten⟩ := hg.lands_role hv hnext hx
  · exact .inl (congrArg _ (hg.finish.unique hmem hframed.finish.1 hfinish hframed.finish.2))
  · exact .inr ⟨x, hmem, hwritten, rfl⟩

/-! ## Elements -/

/-- The element of a vertex: on success it goes on to vertices, and on failure it goes to the kill
element or to the handler of the vertex. -/
structure Vertex.Becomes (g : Graph) (finish kill : String) (v : Vertex) (el : Element) : Prop where
  name_eq : el.name = v.name
  no_kill : el.killMessage? = none
  successes : ∀ target ∈ el.successes, g.Goal finish target
  failures : ∀ target ∈ el.failures, target = kill ∨ ∃ h, v.handler? = some h ∧ target = h.name

theorem Vertex.Calls.mem_cases (hg : g.Sound) (hframed : g.Framed start finish kill)
    (hv : v ∈ g.vertices) (h : v.Calls t g finish.name kill.name earlier els) (hel : el ∈ els) :
    v.Becomes g finish.name kill.name el ∨
      ∃ k payload, v.handler? = some k ∧ el = ⟨k.name, .action payload kill.name kill.name⟩ := by
  have hgoal := fun {next : VertexId} {name : String} (hnext : next ∈ v.children)
    (hname : g.LeadsTo next name) => hg.goal_of_leadsTo hframed hv hnext hname
  cases h with
  | silent => cases hel
  | @decision cases default next hrole hcases hnext hdefault =>
    rw [List.mem_singleton.mp hel]
    refine .inl ⟨rfl, rfl, fun target htarget => ?_, fun _ hfail => by cases hfail⟩
    rcases List.mem_append.mp htarget with htarget | htarget
    · obtain ⟨case, hcase, rfl⟩ := List.mem_map.mp htarget
      obtain ⟨way, hway, -, hleads⟩ := exists_of_mem_right hcases hcase
      exact hgoal (Vertex.mem_children_of_labelled hway) hleads
    · rw [List.mem_singleton.mp htarget]
      exact hgoal (Vertex.mem_children_of_default? hnext) hdefault
  | fork hrole hne hpaths =>
    rw [List.mem_singleton.mp hel]
    refine .inl ⟨rfl, rfl, fun target htarget => ?_, fun _ hfail => by cases hfail⟩
    obtain ⟨next, hnext, hleads⟩ := exists_of_mem_right hpaths htarget
    exact hgoal hnext hleads
  | join hrole hnext hjoin =>
    rw [List.mem_singleton.mp hel]
    refine .inl ⟨rfl, rfl, fun target htarget => ?_, fun _ hfail => by cases hfail⟩
    rw [List.mem_singleton.mp htarget]
    exact hgoal (Vertex.mem_children_of_child? hnext) hjoin
  | @task task payload guards ok error hrole hpayload hok hguards =>
    have hhandler : v.handler? = task.handler := by simp [Vertex.handler?, hrole]
    rw [← hhandler] at hguards
    rcases List.mem_append.mp hel with hguard | hown
    · generalize v.handler? = handler at hguards
      cases hguards with
      | unguarded => exact absurd hguard List.not_mem_nil
      | again => exact absurd hguard List.not_mem_nil
      | first =>
        rw [List.mem_singleton.mp hguard]
        exact .inr ⟨_, _, rfl, rfl⟩
    · rw [List.mem_singleton.mp hown]
      refine .inl ⟨rfl, rfl, fun target htarget => ?_, fun target htarget => ?_⟩
      · rw [List.mem_singleton.mp htarget]
        cases hok with
        | along hnext hleads => exact hgoal (Vertex.mem_children_of_child? hnext) hleads
        | ends => exact .inl rfl
      · rw [List.mem_singleton.mp htarget]
        generalize v.handler? = handler at hguards ⊢
        cases hguards with
        | unguarded => exact .inl rfl
        | again => exact .inr ⟨_, rfl, rfl⟩
        | first => exact .inr ⟨_, rfl, rfl⟩

variable {last fail : String}

theorem Graph.Written.exists_calls (h : g.Written t last fail earlier vs els) (hel : el ∈ els) :
    ∃ v ∈ vs, ∃ before more, v.Calls t g last fail before more ∧ el ∈ more := by
  induction h with
  | nil => cases hel
  | @cons earlier rest v more _ hv _ ih =>
    rcases List.mem_append.mp hel with hel | hel
    · exact ⟨v, List.mem_cons_self, earlier, more, hv, hel⟩
    · obtain ⟨u, hu, hcalls⟩ := ih hel
      exact ⟨u, List.mem_cons_of_mem v hu, hcalls⟩

/-- A handler has its element, with its payload, before the first vertex that has the handler. -/
theorem Graph.Written.exists_guard (h : g.Written t last fail earlier vs els) {k : Handler}
    (hk : k.On vs) : k.On earlier ∨ ∃ payload, t.mappings.map k.name k.action = .ok payload ∧
      ⟨k.name, .action payload fail fail⟩ ∈ els := by
  induction h with
  | nil =>
    obtain ⟨v, hv, -⟩ := hk
    cases hv
  | @cons earlier rest v els more hv _ ih =>
    have hfirst : v.handler? = some k → k.On earlier ∨
        ∃ payload, t.mappings.map k.name k.action = .ok payload ∧
          ⟨k.name, .action payload fail fail⟩ ∈ els ++ more := by
      intro hvk
      cases hv with
      | task hrole _ _ hguards =>
        simp only [Vertex.handler?, hrole] at hvk
        rw [hvk] at hguards
        cases hguards with
        | again hon => exact .inl hon
        | first _ hpayload =>
          exact .inr ⟨_, hpayload,
            List.mem_append_left _ (List.mem_append_left _ List.mem_cons_self)⟩
      | silent hrole => rcases hrole with hrole | hrole | hrole | hrole <;>
          simp [Vertex.handler?, hrole] at hvk
      | decision hrole => simp [Vertex.handler?, hrole] at hvk
      | fork hrole => simp [Vertex.handler?, hrole] at hvk
      | join hrole => simp [Vertex.handler?, hrole] at hvk
    obtain ⟨u, hu, huk⟩ := hk
    rcases List.mem_cons.mp hu with rfl | hu
    · exact hfirst huk
    · rcases ih ⟨u, hu, huk⟩ with hon | ⟨payload, hpayload, hmem⟩
      · rcases Handler.on_concat_iff.mp hon with hon | hvk
        · exact .inl hon
        · exact hfirst hvk
      · exact .inr ⟨payload, hpayload, List.mem_append_right _ hmem⟩

end

/-! ## The whole document -/

namespace Document.Tells

variable {d : Document} {t : Translator} {g : Graph} {start finish kill : Vertex}
  {els : List Element} (h : d.Tells t g start finish kill els)
include h

/-- A place to go on to is no handler's name and not that of the kill element. -/
theorem goal_proceeds {target : String} (hgoal : g.Goal finish.name target) :
    target ≠ kill.name ∧ ∀ k : Handler, k.On g.vertices → target ≠ k.name := by
  have hnodup := (claimed_perm h.written).nodup_iff.mp h.nodup
  have hhandler : ∀ k : Handler, k.On g.vertices →
      k.name ∈ (g.vertices.filterMap Vertex.handler?).dedup.map Handler.name :=
    fun k hk => List.mem_map_of_mem (Handler.mem_dedup_iff.mpr hk)
  rw [List.nodup_cons, List.nodup_cons, List.nodup_append] at hnodup
  obtain ⟨hfinish, hkill, -, -, hdisjoint⟩ := hnodup
  rcases hgoal with rfl | ⟨x, hx, hwritten, rfl⟩
  · constructor
    · intro heq
      exact hfinish (heq ▸ List.mem_cons_self)
    · intro k hk heq
      exact hfinish (List.mem_cons_of_mem _ (List.mem_append_right _ (heq ▸ hhandler k hk)))
  · have hname := List.mem_map_of_mem (f := Vertex.name) (List.mem_filter.mpr ⟨hx, hwritten⟩)
    constructor
    · intro heq
      exact hkill (List.mem_append_left _ (heq ▸ hname))
    · intro k hk heq
      exact hdisjoint _ hname _ (hhandler k hk) heq

theorem name_of_goal {target : String} (hgoal : g.Goal finish.name target) :
    target = d.finish ∨ target ∈ d.elements.map Element.name := by
  rcases hgoal with rfl | ⟨x, hx, hwritten, rfl⟩
  · exact .inl h.finish_eq.symm
  · rw [h.elements_eq]
    refine .inr (List.mem_cons_of_mem _ (h.written.tallies.names.mem_iff.mpr ?_))
    exact List.mem_append_left _ (List.mem_map_of_mem (List.mem_filter.mpr ⟨hx, hwritten⟩))

/-- An element behind the kill element is that of a vertex or that of a handler. -/
theorem mem_cases (hg : g.Sound) {el : Element} (hel : el ∈ els) :
    (∃ v ∈ g.vertices, v.Becomes g finish.name kill.name el) ∨
      ∃ k : Handler, k.On g.vertices ∧
        ∃ payload, el = ⟨k.name, .action payload kill.name kill.name⟩ := by
  obtain ⟨v, hv, before, more, hcalls, hmore⟩ := h.written.exists_calls hel
  rcases hcalls.mem_cases hg h.framed hv hmore with hbecomes | ⟨k, payload, hk, heq⟩
  · exact .inl ⟨v, hv, hbecomes⟩
  · exact .inr ⟨k, ⟨v, hv, hk⟩, payload, heq⟩

theorem exists_guard {k : Handler} (hk : k.On g.vertices) :
    ∃ payload, ⟨k.name, .action payload kill.name kill.name⟩ ∈ d.elements := by
  rcases h.written.exists_guard hk with ⟨_, hnil, -⟩ | ⟨payload, -, hmem⟩
  · exact absurd hnil List.not_mem_nil
  · exact ⟨payload, h.elements_eq ▸ List.mem_cons_of_mem _ hmem⟩

theorem goal_start (hg : g.Sound) : g.Goal finish.name d.start := by
  obtain ⟨next, hnext, hstart⟩ := h.begins
  exact hg.goal_of_leadsTo h.framed h.framed.start.1 (Vertex.mem_children_of_child? hnext) hstart

theorem names_nodup : (d.finish :: d.elements.map Element.name).Nodup := by
  rw [h.finish_eq, h.elements_eq]
  exact h.nodup

/-- A name in use is that of one element only. -/
theorem existsUnique_element {target : String} (hmem : target ∈ d.elements.map Element.name) :
    ∃! e, e ∈ d.elements ∧ e.name = target := by
  obtain ⟨e, he, rfl⟩ := List.mem_map.mp hmem
  have hnodup := (List.nodup_cons.mp h.names_nodup).2
  exact ⟨e, ⟨he, rfl⟩, fun e' he' => List.inj_on_of_nodup_map hnodup he'.1 he he'.2⟩

theorem closed (hg : g.Sound) : d.Closed g kill.name := by
  have hkill : killElement t kill ∈ d.elements := h.elements_eq ▸ List.mem_cons_self
  have hcases : ∀ e ∈ d.elements, e = killElement t kill ∨ e ∈ els :=
    fun e he => List.mem_cons.mp (h.elements_eq ▸ he)
  have hfails : ∀ e ∈ d.elements, ∀ target ∈ e.failures, target = kill.name ∨
      ∃ payload, ⟨target, .action payload kill.name kill.name⟩ ∈ d.elements := by
    intro e he target htarget
    rcases hcases e he with rfl | hels
    · exact absurd htarget List.not_mem_nil
    rcases h.mem_cases hg hels with ⟨v, hv, hbecomes⟩ | ⟨k, hk, payload, rfl⟩
    · rcases hbecomes.failures target htarget with hkill | ⟨k, hvk, rfl⟩
      · exact .inl hkill
      · exact .inr (h.exists_guard ⟨v, hv, hvk⟩)
    · exact .inl (List.mem_singleton.mp htarget)
  constructor
  case names_nodup => exact (List.nodup_cons.mp h.names_nodup).2
  case name_ne =>
    intro e he heq
    exact (List.nodup_cons.mp h.names_nodup).1 (heq ▸ List.mem_map_of_mem he)
  case kill_first =>
    refine ⟨t.settings.killMessage, els, h.elements_eq, fun e he => ?_⟩
    rcases h.mem_cases hg he with ⟨v, -, hbecomes⟩ | ⟨k, -, payload, rfl⟩
    · exact hbecomes.no_kill
    · rfl
  case reaches =>
    have hname : ∀ target ∈ d.targets,
        target = d.finish ∨ target ∈ d.elements.map Element.name := by
      have hkillName : kill.name ∈ d.elements.map Element.name := List.mem_map_of_mem hkill
      intro target htarget
      rcases List.mem_cons.mp htarget with rfl | htarget
      · exact h.name_of_goal (h.goal_start hg)
      obtain ⟨e, he, htarget⟩ := List.mem_flatMap.mp htarget
      rcases List.mem_append.mp htarget with hsuccess | hfail
      · rcases hcases e he with rfl | hels
        · exact absurd hsuccess List.not_mem_nil
        rcases h.mem_cases hg hels with ⟨v, -, hbecomes⟩ | ⟨k, -, payload, rfl⟩
        · exact h.name_of_goal (hbecomes.successes target hsuccess)
        · exact .inr (List.mem_singleton.mp hsuccess ▸ hkillName)
      · rcases hfails e he target hfail with rfl | ⟨payload, hguard⟩
        · exact .inr hkillName
        · exact .inr (List.mem_map.mpr ⟨_, hguard, rfl⟩)
    intro target htarget
    exact (hname target htarget).imp_right h.existsUnique_element
  case start_proceeds => exact h.goal_proceeds (h.goal_start hg)
  case proceeds =>
    intro e he hplain target htarget
    rcases hcases e he with rfl | hels
    · exact absurd htarget List.not_mem_nil
    rcases h.mem_cases hg hels with ⟨v, -, hbecomes⟩ | ⟨k, hk, payload, rfl⟩
    · exact h.goal_proceeds (hbecomes.successes target htarget)
    · exact absurd rfl (hplain k hk)
  case fails => exact hfails

end Document.Tells

/-- Whatever edits made the graph and whatever payloads the translator has, the document that comes
about is closed. -/
theorem Graph.Reached.document_closed {t : Translator} {g : Graph} {d : Document} (hg : g.Reached)
    (hd : Document.ofGraph t g = .ok d) : ∃ kill, d.Closed g kill := by
  obtain ⟨start, finish, kill, els, h⟩ := Document.exists_tells hg.sound hd
  exact ⟨kill.name, h.closed hg.sound⟩

theorem Document.backup_closed : Graph.backup.Reached ∧
    Document.ofGraph .pager .backup = .ok Document.backup ∧
    ∃ kill, Document.backup.Closed .backup kill :=
  ⟨Graph.backup_reached, ofGraph_backup, Graph.backup_reached.document_closed ofGraph_backup⟩

end BatchFlow

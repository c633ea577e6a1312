import BatchFlow.Lowering
import BatchFlow.Proofs.Outline.Fitting
import BatchFlow.Proofs.Outline.Sheets
import BatchFlow.Proofs.Outline.Structured

/-!
# The graph of an outline

A workflow that has an outline has a graph, because the wires of a row that traces a workflow fit
their sites. The graph shows the outline: its vertices are the sites and its edges are the wires.
-/

namespace BatchFlow

/-- All sites: the start and the end, those of the row, and the kill vertex. -/
def Row.allSites (r : Row) : List Site :=
  (0, .start) :: (1, .finish) :: (r.sites 2 ++ [(2 + r.size, .kill)])

/-- All wires: those of the row, which the start leads into, and the one into the end. -/
def Row.allWires (r : Row) : List Wire := r.wiresTo ⟨0, 0, none⟩ 2 1

/-- All stations: the start and the end, those that the layout adds, and the kill vertex. -/
def Row.stations (r : Row) (taken : List String) : List Station :=
  [(Graph.startName, .start), (Graph.finishName, .finish)] ++
    r.laidOut taken ++ [(Graph.killName, .kill)]

/-- The graph of an outline. -/
def Row.graph (r : Row) (name : String) (taken : List String) : Graph where
  name
  vertices := drawing (r.stations taken) r.allWires
  start := some 0
  finish := some 1
  kill := some (2 + r.size)

namespace Row

theorem mem_allWires {r : Row} {e : Wire} (he : e ∈ r.allWires) :
    (e.target = 1 ∨ 2 ≤ e.target ∧ e.target < 2 + r.size) ∧
      (e.port.source = 0 ∨ 2 ≤ e.port.source ∧ e.port.source < 2 + r.size) :=
  Row.mem_wiresTo e he

theorem wires_start (r : Row) :
    (∃ target, wiresFrom r.allWires 0 = [⟨⟨0, 0, none⟩, target⟩]) ∧
      wiresInto r.allWires 0 = [] := by
  refine ⟨⟨_, r.wiresFrom_entry (q := ⟨0, 0, none⟩) 1 Nat.two_pos⟩, wiresInto_eq_nil fun e he => ?_⟩
  have := (mem_allWires he).1
  omega

theorem wires_finish (r : Row) : wiresFrom r.allWires 1 = [] ∧
    wiresInto r.allWires 1 = [⟨r.exit ⟨0, 0, none⟩ 2, 1⟩] := by
  constructor
  · refine wiresFrom_eq_nil fun e he => ?_
    have := (mem_allWires he).2
    omega
  · have hinto : wiresInto (r.wires ⟨0, 0, none⟩ 2) 1 = [] := by
      refine wiresInto_eq_nil fun e he => ?_
      have := (r.mem_wires _ _ e he).1
      omega
    unfold allWires wiresTo
    rw [wiresInto_append, hinto]
    rfl

theorem avoid_kill (r : Row) : Avoid r.allWires (2 + r.size) := by
  intro e he
  have := mem_allWires he
  omega

theorem mem_allSites {r : Row} {v : Nat} {role : Role} : (v, role) ∈ r.allSites ↔
    (v = 0 ∧ role = .start) ∨ (v = 1 ∧ role = .finish) ∨ (v, role) ∈ r.sites 2 ∨
      (v = 2 + r.size ∧ role = .kill) := by
  simp [allSites]

theorem suits_allSites {r : Row} (hr : r.Proper) :
    ∀ (v : Nat) (role : Role), (v, role) ∈ r.allSites → Suits r.allWires v role := by
  intro v role hv
  unfold Suits
  rcases mem_allSites.mp hv with ⟨rfl, rfl⟩ | ⟨rfl, rfl⟩ | hv | ⟨rfl, rfl⟩
  · obtain ⟨⟨target, hone⟩, hinto⟩ := r.wires_start
    rw [hone, hinto]
    exact ⟨⟨fun _ _ => Nat.zero_le _, by simp⟩, rfl⟩
  · rw [r.wires_finish.1, r.wires_finish.2]
    exact ⟨⟨fun _ h => Option.some.inj h ▸ Nat.le_refl 1, rfl⟩, rfl⟩
  · exact r.suits hr Nat.two_pos (.inl Nat.one_lt_two) v role hv
  · rw [r.avoid_kill.wiresFrom, r.avoid_kill.wiresInto]
    exact ⟨⟨fun _ _ => Nat.zero_le _, rfl⟩, rfl⟩

/-- The edits of a row draw the row between the start and the end. -/
theorem edits_eq (r : Row) (taken : List String) : ∃ edits,
    r.edits taken = [.addStart, .addFinish] ++ (edits ++ [.addKill]) ∧
      sitesOf (r.laidOut taken) 2 = r.sites 2 ∧
      Draws 2 edits (r.laidOut taken) r.allWires := by
  let s : Sheet := (({ names := .start taken } : Sheet).add .addStart).add .addFinish
  obtain ⟨hexit, hrow⟩ := r.layout_extends ⟨0, 0, none⟩ s Nat.two_pos
  have hsize : (r.layout ⟨0, none⟩ s).2.next = 2 + r.size := by
    rw [← r.length_sites 2]
    exact hrow.next_eq
  have hclose : (r.layout ⟨0, none⟩ s).2.Extends
      ((r.layout ⟨0, none⟩ s).2.connect (r.exit ⟨0, 0, none⟩ 2).stub 1) []
      [⟨r.exit ⟨0, 0, none⟩ 2, 1⟩] :=
    .connect (hsize ▸ Row.exit_source_lt Nat.two_pos)
      (hsize ▸ Nat.lt_add_right r.size Nat.one_lt_two)
  obtain ⟨edits, sts, hedits, -, hsites, hdraws⟩ := hrow.trans hclose
  have hall : r.edits taken = [.addStart, .addFinish] ++ (edits ++ [.addKill]) := by
    have hlast : r.edits taken = ((r.layout ⟨0, none⟩ s).2.connect (r.layout ⟨0, none⟩ s).1
        1).edits ++ [.addKill] := rfl
    rw [hlast, show (r.layout ⟨0, none⟩ s).1 = _ from hexit]
    exact (congrArg (· ++ [Graph.Edit.addKill]) hedits).trans (List.append_assoc ..)
  have hsts : r.laidOut taken = sts := by
    have hdrawn : edits.filterMap Graph.Edit.station? = sts := hdraws.filterMap_station?
    rw [laidOut, hall, List.filterMap_append, List.filterMap_append, hdrawn]
    exact List.append_nil sts
  rw [List.append_nil] at hsites
  exact ⟨edits, hall, hsts ▸ hsites, hsts ▸ hdraws⟩

theorem sitesOf_stations (r : Row) (taken : List String) :
    sitesOf (r.stations taken) 0 = r.allSites := by
  obtain ⟨-, -, hsites, -⟩ := r.edits_eq taken
  have hlen := congrArg List.length hsites
  rw [length_sitesOf, r.length_sites] at hlen
  rw [stations, sitesOf_append, sitesOf_append, List.length_append, hlen]
  simpa [allSites, sitesOf, Nat.add_comm] using hsites

theorem length_stations (r : Row) (taken : List String) :
    (r.stations taken).length = 3 + r.size := by
  rw [← length_sitesOf _ 0, sitesOf_stations]
  simp only [allSites, List.length_cons, List.length_append, r.length_sites, List.length_nil]
  omega

/-- All edits of a proper row are performed. -/
theorem performAll_edits {r : Row} (hr : r.Proper) (name : String) (taken : List String) :
    ({ name } : Graph).performAll (r.edits taken) = .ok (r.graph name taken) := by
  obtain ⟨edits, hedits, hsites, hdraws⟩ := r.edits_eq taken
  let ends : List Station := [(Graph.startName, .start), (Graph.finishName, .finish)]
  let sts := r.laidOut taken
  have hlen : sts.length = r.size := by rw [← length_sitesOf sts 2, hsites, r.length_sites]
  have hfit : Fits (ends ++ sts ++ [(Graph.killName, .kill)]) r.allWires := by
    intro v st hv
    refine (suits_allSites hr v st.2 ?_).1
    rw [← r.sitesOf_stations taken]
    exact mem_sitesOf.mpr ⟨st.1, hv⟩
  have hbelow : WiresBelow r.allWires (ends ++ sts).length := by
    intro e he
    have := mem_allWires he
    rw [List.length_append, hlen]
    show e.port.source < 2 + r.size ∧ e.target < 2 + r.size
    omega
  -- The start and the end come first, then the row, and the kill vertex last.
  let g : Graph := { name, vertices := drawing ends [], start := some 0, finish := some 1 }
  have hstart : ({ name } : Graph).performAll [.addStart, .addFinish] = .ok g := rfl
  have hg : g.vertices = drawing ends [] := rfl
  have hrow := Draws.performAll (show Draws ends.length edits sts r.allWires from hdraws) hg
    (fun _ he => by cases he) hfit.left
  let g' : Graph := { g with vertices := drawing (ends ++ sts) r.allWires }
  have hkill : g'.performAll [.addKill] = .ok (r.graph name taken) := by
    have hpush := push_drawing (g := g') rfl hbelow (Graph.killName, .kill)
    have hsize : g'.size = 2 + r.size := by
      show (drawing (ends ++ sts) r.allWires).length = _
      rw [length_drawing, List.length_append, hlen]
      rfl
    show Except.ok ({ g'.push Graph.killName .kill with kill := some g'.size } : Graph) = _
    rw [hsize, show g'.push Graph.killName .kill = _ from hpush]
    rfl
  rw [hedits, performAll_append, hstart]
  show g.performAll (edits ++ [.addKill]) = _
  rw [performAll_append, hrow]
  exact hkill

end Row

/-! ## Rows that trace a workflow are proper -/

theorem Row.proper_append : ∀ (r : Row) {s : Row}, r.Proper → s.Proper → (r.append s).Proper
  | .done, _, _, hs => hs
  | .task _ next, _, hr, hs => proper_append next hr hs
  | .fork _ next, _, hr, hs => ⟨hr.1, hr.2.1, proper_append next hr.2.2 hs⟩
  | .decision _ next, _, hr, hs => ⟨hr.1, hr.2.1, proper_append next hr.2.2 hs⟩

section Proper

variable {w : Workflow}

theorem Arms.Traces.conditions_eq {merge : NodeId} {heads : List (NodeId × Option Condition)}
    {arms : Arms} : Arms.Traces w merge heads arms → arms.conditions = heads.map Prod.snd
  | .none _ => rfl
  | .arm _ hmore => by rw [conditions, hmore.conditions_eq, List.map_cons]

theorem Workflow.Sound.one_default (hw : w.Sound) (a : Place) :
    (w.choices a).countP (·.condition.isDefault) ≤ 1 := by
  cases a with
  | source => exact Nat.zero_le 1
  | node id =>
    cases hn : w.node? id with
    | none =>
      rw [show w.choices (.node id) = [] by simp [Workflow.choices, hn]]
      exact Nat.zero_le 1
    | some n =>
      rw [Workflow.choices_node hn]
      exact (hw.dag.tidy id n hn).one_default

mutual

theorem Row.Traces.proper (hw : w.Sound) {id stop : NodeId} {r : Row} :
    Row.Traces w id stop r → r.Proper
  | .done _ => trivial
  | .task _ _ hb ht => Row.proper_append _ (Row.Bridges.proper hw hb) (Row.Traces.proper hw ht)

theorem Row.Bridges.proper (hw : w.Sound) {a : Place} {r : Row} : Row.Bridges w a r → r.Proper
  | .skip _ _ => trivial
  | .single _ _ ht => Row.Traces.proper hw ht
  | .fork hplain htwo ht => by
    have hconditions := ht.conditions_eq
    refine ⟨⟨fun hnil => ?_, fun c hc => ?_⟩, Arms.Traces.proper hw ht, trivial⟩
    · have hlen := congrArg List.length (hconditions.symm.trans hnil)
      rw [List.length_map, List.length_nil] at hlen
      omega
    · rw [hconditions, Workflow.branches, if_pos hplain, List.map_map] at hc
      obtain ⟨_, _, rfl⟩ := List.mem_map.mp hc
      rfl
  | .decision (a := a) hdefault ht => by
    obtain ⟨b, hb, -⟩ := hdefault
    have hsome : w.choices a ≠ [] := List.ne_nil_of_mem hb
    have hconditions := ht.conditions_eq
    rw [Workflow.branches, if_neg hsome, List.map_map] at hconditions
    refine ⟨⟨?_, ?_, ?_⟩, Arms.Traces.proper hw ht, trivial⟩
    · rw [hconditions]
      simpa using hsome
    · rw [hconditions]
      simp
    · rw [hconditions, List.countP_map]
      simpa [Function.comp_def] using hw.one_default a

theorem Arms.Traces.proper (hw : w.Sound) {merge : NodeId}
    {heads : List (NodeId × Option Condition)} {arms : Arms} :
    Arms.Traces w merge heads arms → arms.Proper
  | .none _ => trivial
  | .arm ht hmore => ⟨Row.Traces.proper hw ht, Arms.Traces.proper hw hmore⟩

end

theorem Row.Outlines.proper (hw : w.Sound) {r : Row} (ho : Row.Outlines w r) : r.Proper := by
  cases ho with
  | mk hb ht _ => exact Row.proper_append _ (hb.proper hw) (ht.proper hw)

end Proper

/-! ## What a graph shows -/

/-- The graph has an edge at a given place among those of the source. -/
def Graph.HasWire (g : Graph) (e : Wire) : Prop :=
  ∃ x, g.get? e.port.source = some x ∧ x.arcs[e.port.index]? = some e.arc

/-- The vertices of the graph are the sites of the row, and its edges are the wires. -/
structure Graph.Shows (g : Graph) (r : Row) : Prop where
  start_eq : g.start = some 0
  finish_eq : g.finish = some 1
  role_iff : ∀ (v : Nat) role, (∃ x, g.get? v = some x ∧ x.role = role) ↔ (v, role) ∈ r.allSites
  wire_iff : ∀ e, g.HasWire e ↔ e ∈ r.allWires

/-- Where the edges out of a vertex are numbered, each has the place that its number says. -/
theorem getElem?_wiresFrom {ws : List Wire} {v i : Nat} {e : Wire}
    (hnum : (wiresFrom ws v).map (·.port.index) = List.range (wiresFrom ws v).length) :
    (wiresFrom ws v)[i]? = some e ↔ e ∈ ws ∧ e.port.source = v ∧ e.port.index = i := by
  have hindex : ∀ (i : Nat) (e : Wire), (wiresFrom ws v)[i]? = some e → e.port.index = i := by
    intro i e he
    have hmap := congrArg (·[i]?) hnum
    have hlt : i < (wiresFrom ws v).length := (List.getElem?_eq_some_iff.mp he).1
    simp only [List.getElem?_map, he, Option.map_some, List.getElem?_range hlt] at hmap
    exact Option.some.inj hmap
  constructor
  · intro he
    obtain ⟨hmem, hsource⟩ := List.mem_filter.mp (List.mem_of_getElem? he)
    exact ⟨hmem, by simpa using hsource, hindex i e he⟩
  · rintro ⟨hmem, hsource, rfl⟩
    have hfrom : e ∈ wiresFrom ws v := List.mem_filter.mpr ⟨hmem, by simpa using hsource⟩
    obtain ⟨i, he⟩ := List.mem_iff_getElem?.mp hfrom
    rw [hindex i e he]
    exact he

/-- Where the edges out of a station are numbered, the vertex has exactly the edges of its wires. -/
theorem getElem?_arcs_vertexAt {ws : List Wire} {e : Wire} (st : Station)
    (hnum : (wiresFrom ws e.port.source).map (·.port.index) =
      List.range (wiresFrom ws e.port.source).length) :
    (vertexAt ws e.port.source st).arcs[e.port.index]? = some e.arc ↔ e ∈ ws := by
  simp only [vertexAt, List.getElem?_map, Option.map_eq_some_iff]
  constructor
  · rintro ⟨e', he', harc⟩
    obtain ⟨hmem, hsource, hindex⟩ := (getElem?_wiresFrom hnum).mp he'
    obtain ⟨⟨source, index, condition⟩, target⟩ := e
    obtain ⟨⟨source', index', condition'⟩, target'⟩ := e'
    simp only [Wire.arc, Arc.mk.injEq] at harc
    simp only at hsource hindex
    rw [hsource, hindex, harc.1, harc.2] at hmem
    exact hmem
  · intro he
    exact ⟨e, (getElem?_wiresFrom hnum).mpr ⟨he, rfl, rfl⟩, rfl⟩

theorem Row.get?_graph {r : Row} {name : String} {taken : List String} (v : Nat) :
    (r.graph name taken).get? v = (r.stations taken)[v]?.map (vertexAt r.allWires v) :=
  getElem?_drawing v

theorem Row.mem_allSites_of_stations {r : Row} {taken : List String} {v : Nat} {st : Station}
    (hv : (r.stations taken)[v]? = some st) : (v, st.2) ∈ r.allSites :=
  r.sitesOf_stations taken ▸ mem_sitesOf.mpr ⟨st.1, hv⟩

theorem Row.shows_graph {r : Row} (hr : r.Proper) (name : String) (taken : List String) :
    (r.graph name taken).Shows r := by
  have hnum : ∀ (v : Nat) (st : Station), (r.stations taken)[v]? = some st →
      (wiresFrom r.allWires v).map (·.port.index) =
        List.range (wiresFrom r.allWires v).length :=
    fun v st hv => (r.suits_allSites hr v st.2 (mem_allSites_of_stations hv)).2
  refine ⟨rfl, rfl, fun v role => ?_, fun e => ?_⟩
  · rw [← r.sitesOf_stations taken, mem_sitesOf, r.get?_graph]
    constructor
    · rintro ⟨x, hx, rfl⟩
      obtain ⟨st, hv, rfl⟩ := Option.map_eq_some_iff.mp hx
      exact ⟨st.1, hv⟩
    · rintro ⟨name, hv⟩
      exact ⟨_, Option.map_eq_some_iff.mpr ⟨_, hv, rfl⟩, rfl⟩
  · constructor
    · rintro ⟨x, hx, harc⟩
      rw [r.get?_graph] at hx
      obtain ⟨st, hv, rfl⟩ := Option.map_eq_some_iff.mp hx
      exact (getElem?_arcs_vertexAt st (hnum _ st hv)).mp harc
    · intro he
      have hlt : e.port.source < (r.stations taken).length := by
        have := r.mem_allWires he
        rw [r.length_stations]
        omega
      have hv := List.getElem?_eq_getElem hlt
      refine ⟨vertexAt r.allWires e.port.source (r.stations taken)[e.port.source], ?_, ?_⟩
      · rw [r.get?_graph, hv]
        rfl
      · exact (getElem?_arcs_vertexAt _ (hnum _ _ hv)).mpr he

/-- Lowering makes a graph that shows an outline, or the workflow is to blame. -/
theorem Workflow.Sound.ofWorkflow_ends {w : Workflow} (hw : w.Sound) :
    Ends (fun g => (∀ name ∈ w.givenNames, name ∉ Workflow.reservedNames) ∧
        ∃ r, Row.Outlines w r ∧ g.Shows r)
      (fun e => (∃ name ∈ w.givenNames, name ∈ Workflow.reservedNames) ∧
          (∃ name, e = .reservedName name) ∨
        (∃ id, w.LacksDefault id ∧ e = .missingDefault (w.nameOf id)) ∨
        ∃ x, w.CrossedAt x ∧ e = .unstructuredBranch (w.nameOf x))
      (Graph.ofWorkflow w) := by
  unfold Graph.ofWorkflow Workflow.checkNames
  cases hfind : w.givenNames.find? Workflow.reservedNames.contains with
  | some name =>
    have hreserved := List.find?_some hfind
    exact .inl ⟨⟨name, List.mem_of_find?_eq_some hfind, by simpa using hreserved⟩, name, rfl⟩
  | none =>
    have hnames : ∀ name ∈ w.givenNames, name ∉ Workflow.reservedNames := by
      intro name hname
      simpa using List.find?_eq_none.mp hfind name hname
    refine Ends.bind (x := w.outline) (hw.outline_ends.mono (fun _ h => h) fun _ h => .inr h) ?_
    intro r ho
    have hr := ho.proper hw
    show Ends _ _ (({ name := w.name } : Graph).performAll (r.edits w.givenNames))
    rw [Row.performAll_edits hr]
    exact ⟨hnames, r, ho, r.shows_graph hr w.name w.givenNames⟩

/-- A workflow that is lowered becomes the graph of its outline. -/
theorem Workflow.Sound.exists_graph {w : Workflow} (hw : w.Sound) {g : Graph}
    (hg : Graph.ofWorkflow w = .ok g) :
    ∃ r, Row.Outlines w r ∧ g = r.graph w.name w.givenNames := by
  obtain ⟨taken, htaken, hg⟩ := bind_eq_ok_iff.mp hg
  obtain ⟨r, hr, hg⟩ := bind_eq_ok_iff.mp hg
  have hgiven : taken = w.givenNames := by
    unfold Workflow.checkNames at htaken
    cases hfind : w.givenNames.find? Workflow.reservedNames.contains with
    | some name =>
      rw [hfind] at htaken
      cases htaken
    | none =>
      rw [hfind] at htaken
      exact (Except.ok.inj htaken).symm
  have ho := hw.outline_ends.good_of_eq hr
  rw [hgiven, Row.performAll_edits (ho.proper hw)] at hg
  exact ⟨r, ho, (Except.ok.inj hg).symm⟩

end BatchFlow

import BatchFlow.Proofs.Document.Copying
import BatchFlow.Proofs.Document.Writing
import BatchFlow.Proofs.Lowering.Distinct

/-!
# How translation ends

A workflow of built-in actions that is lowered becomes a complete graph, which the standard
translator covers. The names of its vertices are told apart, so a name is used twice just when the
name of a handler is that of a node or of another handler.
-/

namespace BatchFlow

namespace Workflow

/-- The handler is that of one of the nodes. -/
def Attached (w : Workflow) (h : Handler) : Prop := ∃ n ∈ w.nodes, n.handler = some h

/-- A handler has the name of a node, or two different handlers have one name. -/
def HandlersClash (w : Workflow) : Prop :=
  (∃ h n, w.Attached h ∧ n ∈ w.nodes ∧ h.name = n.name) ∨
    ∃ h h', w.Attached h ∧ w.Attached h' ∧ h ≠ h' ∧ h.name = h'.name

/-- All actions, those of handlers included, are of built-in kinds. -/
def AllBuiltIn (w : Workflow) : Prop :=
  ∀ n ∈ w.nodes, n.action.kind ∈ Kind.builtIn ∧ ∀ h ∈ n.handler, h.action.kind ∈ Kind.builtIn

instance (w : Workflow) : Decidable w.AllBuiltIn :=
  inferInstanceAs (Decidable (∀ n ∈ w.nodes, _ ∧ ∀ h ∈ n.handler, _))

/-- What the standard translator makes of the workflow. -/
structure Verdict (w : Workflow) : Prop where
  graph_iff : ∀ e, Document.ofWorkflow {} w = .error (.graph e) ↔ Graph.ofWorkflow w = .error e
  duplicate_iff : (∃ name, Document.ofWorkflow {} w = .error (.duplicateElementName name)) ↔
    (∃ g, Graph.ofWorkflow w = .ok g) ∧ w.HandlersClash
  ok_iff : (∃ d, Document.ofWorkflow {} w = .ok d) ↔
    (∃ g, Graph.ofWorkflow w = .ok g) ∧ ¬ w.HandlersClash
  /-- There is no other error. -/
  error : ∀ e, Document.ofWorkflow {} w = .error e →
    (∃ name, e = .graph (.reservedName name)) ∨ (∃ name, e = .graph (.missingDefault name)) ∨
      (∃ name, e = .graph (.unstructuredBranch name)) ∨ ∃ name, e = .duplicateElementName name
  names_apart : ∀ g, Graph.ofWorkflow w = .ok g → g.NamesApart w

end Workflow

/-! ## Handlers of nodes and of tasks -/

section

variable {w : Workflow} {g : Graph} {t : Translator}

/-- A task has the name, the action and the handler of a node. -/
theorem Graph.WellFormed.exists_node (h : g.WellFormed w) {x : Vertex} {task : Task}
    (hx : x ∈ g.vertices) (hrole : x.role = .task task) :
    ∃ n ∈ w.nodes, x.name = n.name ∧ task = n.task := by
  obtain ⟨v, hv⟩ := List.mem_iff_getElem?.mp hx
  obtain ⟨n, ⟨hn, y, hy, hname, hrole'⟩, -⟩ := h.node_of_task v x task hv hrole
  cases Option.some.inj (hv.symm.trans hy)
  exact ⟨n, hn, hname, Role.task.inj (hrole.symm.trans hrole')⟩

theorem Graph.WellFormed.exists_task (h : g.WellFormed w) {n : Node} (hn : n ∈ w.nodes) :
    ∃ x ∈ g.vertices, x.name = n.name ∧ x.role = .task n.task := by
  obtain ⟨v, ⟨x, hx, hname, hrole⟩, -⟩ := h.task_of_node n hn
  exact ⟨x, List.mem_of_getElem? hx, hname, hrole⟩

theorem Graph.WellFormed.on_iff (h : g.WellFormed w) {k : Handler} :
    k.On g.vertices ↔ w.Attached k := by
  constructor
  · intro hon
    obtain ⟨x, hx, hk⟩ := hon
    unfold Vertex.handler? at hk
    cases hrole : x.role <;> simp only [hrole, reduceCtorEq] at hk
    obtain ⟨n, hn, -, rfl⟩ := h.exists_node hx hrole
    exact ⟨n, hn, hk⟩
  · intro hattached
    obtain ⟨n, hn, hk⟩ := hattached
    obtain ⟨x, hx, -, hrole⟩ := h.exists_task hn
    exact ⟨x, hx, by rw [Vertex.handler?, hrole]; exact hk⟩

theorem Graph.WellFormed.covers (h : g.WellFormed w) (hkinds : w.AllBuiltIn) :
    ∀ x ∈ g.vertices, ({} : Translator).Covers x := by
  intro x hx task hrole
  obtain ⟨n, hn, -, rfl⟩ := h.exists_node hx hrole
  obtain ⟨haction, hhandler⟩ := hkinds n hn
  exact ⟨Mappings.exists_payload haction x.name,
    fun k hk => Mappings.exists_payload (hhandler k hk) k.name⟩

/-! ## Names that are used twice -/

/-- The vertices that have a name in the document. -/
def Graph.placed (g : Graph) (finish kill : Vertex) : List Vertex :=
  finish :: kill :: g.vertices.filter Vertex.isWritten

variable {start finish kill : Vertex} {els : List Element}

theorem Graph.Framed.placed_subset (hframed : g.Framed start finish kill) :
    g.placed finish kill ⊆ g.vertices := by
  intro x hx
  simp only [Graph.placed, List.mem_cons] at hx
  rcases hx with rfl | rfl | hx
  · exact hframed.finish.1
  · exact hframed.kill.1
  · exact List.mem_of_mem_filter hx

theorem Graph.Framed.placed_nodup (hframed : g.Framed start finish kill)
    (hnodup : (g.vertices.map Vertex.name).Nodup) :
    ((g.placed finish kill).map Vertex.name).Nodup := by
  have hplaced : (g.placed finish kill).Nodup := by
    have hwritten : (g.vertices.filter Vertex.isWritten).Nodup :=
      (List.Nodup.of_map _ hnodup).filter _
    have hfinish : finish.isWritten = false := by simp [Vertex.isWritten, hframed.finish.2]
    have hkill : kill.isWritten = false := by simp [Vertex.isWritten, hframed.kill.2]
    have hne : finish ≠ kill := by
      intro heq
      have hrole := hframed.finish.2
      rw [heq, hframed.kill.2] at hrole
      cases hrole
    simp [Graph.placed, hwritten, hfinish, hkill, hne]
  exact hplaced.map_on fun x hx y hy => List.inj_on_of_nodup_map hnodup
    (hframed.placed_subset hx) (hframed.placed_subset hy)

/-- Among the vertices only a task can have the name of a handler, and tasks are named like their
nodes. -/
theorem Graph.NamesApart.mem_placed_iff (hnames : g.NamesApart w) (h : g.WellFormed w)
    (hframed : g.Framed start finish kill) {k : Handler} (hk : w.Attached k) :
    k.name ∈ (g.placed finish kill).map Vertex.name ↔ ∃ n ∈ w.nodes, k.name = n.name := by
  constructor
  · intro hmem
    obtain ⟨x, hx, hxname⟩ := List.mem_map.mp hmem
    obtain ⟨m, hm, hmk⟩ := hk
    have hgiven : x.name ∈ w.givenNames := hxname ▸ Workflow.handler_mem_givenNames hm hmk
    cases hrole : x.role with
    | task task =>
      obtain ⟨n, hn, hname, -⟩ := h.exists_node (hframed.placed_subset hx) hrole
      exact ⟨n, hn, hxname.symm.trans hname⟩
    | _ => exact absurd hgiven (hnames.new x (hframed.placed_subset hx) (by rw [hrole]; rfl))
  · intro hnode
    obtain ⟨n, hn, hname⟩ := hnode
    obtain ⟨x, hx, hxname, hrole⟩ := h.exists_task hn
    have hwritten : x.isWritten = true := by rw [Vertex.isWritten, hrole]
    rw [hname, ← hxname]
    exact List.mem_map_of_mem (List.mem_cons_of_mem _ (List.mem_cons_of_mem _
      (List.mem_filter.mpr ⟨hx, hwritten⟩)))

/-- The names of the document are those of vertices, which differ, and of handlers. -/
theorem Graph.NamesApart.nodup_iff (hnames : g.NamesApart w) (h : g.WellFormed w)
    (hframed : g.Framed start finish kill)
    (hwritten : g.Written t finish.name kill.name [] g.vertices els) :
    (claimed finish.name (Document.killElement t kill :: els)).Nodup ↔ ¬ w.HandlersClash := by
  have hattached : ∀ k, k ∈ (g.vertices.filterMap Vertex.handler?).dedup ↔ w.Attached k :=
    fun k => Handler.mem_dedup_iff.trans h.on_iff
  have hperm : (claimed finish.name (Document.killElement t kill :: els)).Perm
      ((g.placed finish kill).map Vertex.name ++
        (g.vertices.filterMap Vertex.handler?).dedup.map Handler.name) :=
    Document.claimed_perm hwritten
  rw [hperm.nodup_iff, List.nodup_append', and_iff_right (hframed.placed_nodup hnames.nodup),
    List.nodup_map_iff_inj_on (List.nodup_dedup _)]
  constructor
  · intro hapart hclash
    obtain ⟨hinj, hdisj⟩ := hapart
    rcases hclash with ⟨k, n, hk, hn, hname⟩ | ⟨k, k', hk, hk', hne, hname⟩
    · exact hdisj ((hnames.mem_placed_iff h hframed hk).mpr ⟨n, hn, hname⟩)
        (List.mem_map_of_mem ((hattached k).mpr hk))
    · exact hne (hinj k ((hattached k).mpr hk) k' ((hattached k').mpr hk') hname)
  · intro hclash
    refine ⟨fun k hk k' hk' hname => ?_, fun name hname hname' => ?_⟩
    · by_contra hne
      exact hclash (.inr ⟨k, k', (hattached k).mp hk, (hattached k').mp hk', hne, hname⟩)
    · obtain ⟨k, hk, rfl⟩ := List.mem_map.mp hname'
      have hk := (hattached k).mp hk
      obtain ⟨n, hn, hsame⟩ := (hnames.mem_placed_iff h hframed hk).mp hname
      exact hclash (.inl ⟨k, n, hk, hn, hsame⟩)

/-- The document of a lowered workflow comes about unless handlers clash. -/
theorem Graph.WellFormed.ofGraph_cases (h : g.WellFormed w) (hnames : g.NamesApart w)
    (hcovers : ∀ x ∈ g.vertices, t.Covers x) :
    (¬ w.HandlersClash ∧ ∃ d, Document.ofGraph t g = .ok d) ∨
      w.HandlersClash ∧ ∃ name, Document.ofGraph t g = .error (.duplicateElementName name) := by
  obtain ⟨start, finish, kill, els, hframed, hwritten, hends⟩ := h.ofGraph_ends hcovers
  have hnodup := hnames.nodup_iff h hframed hwritten
  cases hd : Document.ofGraph t g with
  | ok d => exact .inl ⟨hnodup.mp (hends.good_of_eq hd).nodup, d, rfl⟩
  | error e =>
    obtain ⟨name, rfl, hname⟩ := hends.bad_of_eq hd
    refine .inr ⟨?_, name, rfl⟩
    by_contra hclash
    exact List.nodup_iff_forall_not_duplicate.mp (hnodup.mpr hclash) name hname

end

/-! ## From the graph to the document -/

section

variable {t : Translator} {w : Workflow} {g : Graph}

theorem Document.ofWorkflow_of_error {e : GraphError} (hg : Graph.ofWorkflow w = .error e) :
    Document.ofWorkflow t w = .error (.graph e) := by
  rw [Document.ofWorkflow, hg]
  rfl

theorem Document.ofWorkflow_of_ok (hg : Graph.ofWorkflow w = .ok g) :
    Document.ofWorkflow t w = (Document.ofGraph t g).map fun d => { d with
      parameters := w.parameters
      global := w.global
      credentials := w.credentials } := by
  rw [Document.ofWorkflow, hg]
  show Document.ofGraph t g >>= _ = _
  cases Document.ofGraph t g <;> rfl

end

/-- A built workflow of built-in actions is translated, unless lowering refuses it or the name of a
handler is in use. -/
theorem Workflow.Built.verdict {w : Workflow} (hb : w.Built) (hkinds : w.AllBuiltIn) :
    w.Verdict := by
  have hw := hb.sound
  cases hg : Graph.ofWorkflow w with
  | error e =>
    have herror := Document.ofWorkflow_of_error (t := {}) hg
    constructor
    case error =>
      intro e' he'
      rw [herror, Except.error.injEq] at he'
      rcases hw.ofWorkflow_ends.bad_of_eq hg with ⟨-, name, rfl⟩ | ⟨id, -, rfl⟩ | ⟨x, -, rfl⟩
      · exact .inl ⟨name, he'.symm⟩
      · exact .inr (.inl ⟨_, he'.symm⟩)
      · exact .inr (.inr (.inl ⟨_, he'.symm⟩))
    all_goals simp [herror, hg]
  | ok g =>
    have hwell := hb.lowered_wellFormed hg
    have htranslated := Document.ofWorkflow_of_ok (t := {}) hg
    rcases hwell.ofGraph_cases (hw.names_apart hg) (hwell.covers hkinds) with
      ⟨hclash, d, hd⟩ | ⟨hclash, name, hd⟩
    · rw [hd] at htranslated
      constructor
      case names_apart => exact fun _ => hw.names_apart
      all_goals simp [htranslated, Except.map, hg, hclash]
    · rw [hd] at htranslated
      constructor
      case names_apart => exact fun _ => hw.names_apart
      all_goals simp [htranslated, Except.map, hg, hclash]

/-- A handler that sends an email. -/
def Handler.alarm (serial : Nat) : Handler := ⟨serial, "alarm", .email, {}⟩

/-- Two commands in parallel, each with an alarm. -/
def Script.watched (first second : Handler) : Script :=
  [⟨.shell, [.node (.name "prepare")]⟩,
    ⟨.shell, [.node (.name "load"), .node (.parent 0 none), .node (.handler first)]⟩,
    ⟨.mapReduce, [.node (.name "count"), .node (.parent 0 none), .node (.handler second)]⟩]

/-- Both commands have the same alarm. -/
def Workflow.shared : Workflow := (Script.watched (.alarm 0) (.alarm 0)).workflowOfFirst "shared"

/-- The commands have different alarms of one name. -/
def Workflow.clashing : Workflow :=
  (Script.watched (.alarm 0) (.alarm 1)).workflowOfFirst "clashing"

theorem Workflow.shared_built : shared.Built :=
  Script.built (show (Script.watched (.alarm 0) (.alarm 0)).workflow
    { name := .ofDefault "shared", entries := [0] } = .ok shared from rfl)

theorem Workflow.clashing_built : clashing.Built :=
  Script.built (show (Script.watched (.alarm 0) (.alarm 1)).workflow
    { name := .ofDefault "clashing", entries := [0] } = .ok clashing from rfl)

/-- One alarm for both commands is in order, two of the same name are not. -/
theorem Workflow.shared_translated_clashing_refused :
    (shared.Built ∧ shared.AllBuiltIn ∧ shared.Verdict ∧
      ∃ d, Document.ofWorkflow {} shared = .ok d) ∧
    clashing.Built ∧ clashing.AllBuiltIn ∧ clashing.Verdict ∧
      Document.ofWorkflow {} clashing = .error (.duplicateElementName "alarm") := by
  have hshared : shared.AllBuiltIn := by decide
  have hclashing : clashing.AllBuiltIn := by decide
  exact ⟨⟨shared_built, hshared, shared_built.verdict hshared, _, rfl⟩,
    clashing_built, hclashing, clashing_built.verdict hclashing, rfl⟩

end BatchFlow

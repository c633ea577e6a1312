import BatchFlow.Proofs.Graph.Drawing
import BatchFlow.Proofs.Graph.Names
import BatchFlow.Proofs.Outline.Sheets

/-!
# The names of a layout

A sheet keeps account of names: the generated ones are new, each of them, and a task has the name of
its node. Laying out a row only adds tasks of the row, generated vertices and edges, so what these
steps keep holds of all sheets.
-/

namespace BatchFlow

/-- Whether the vertex stands for a node. -/
def Role.isTask : Role → Bool
  | .task _ => true
  | _ => false

/-- What a node becomes. -/
def Node.station (n : Node) : Station := (n.name, .task n.task)

namespace Sheet

def stations (s : Sheet) : List Station := s.edits.filterMap Graph.Edit.station?

/-- The names that were generated for the sheet. -/
def generated (s : Sheet) : List String :=
  (s.stations.filter fun st => !st.2.isTask).map Prod.fst

/-- What holds of a sheet for these nodes that began with these names taken. -/
structure Named (nodes : List Node) (given : List String) (s : Sheet) : Prop where
  tasks : ∀ st ∈ s.stations, st.2.isTask = true → ∃ n ∈ nodes, st = n.station
  taken_eq : s.names.taken = s.generated.reverse ++ given
  nodup : s.generated.Nodup
  new : ∀ name ∈ s.generated, name ∉ given ∧ name ∉ Workflow.reservedNames

/-- An edit that adds a generated vertex under any name. -/
def IsBuilt (edit : String → Graph.Edit) : Prop :=
  ∃ role : Role, role.isTask = false ∧ ∀ name, (edit name).station? = some (name, role)

section

variable {nodes : List Node} {given : List String} {s : Sheet}

theorem Named.of_eq {s' : Sheet} (h : s.Named nodes given) (hstations : s'.stations = s.stations)
    (hnames : s'.names = s.names) : s'.Named nodes given := by
  have hgenerated : s'.generated = s.generated := by rw [generated, generated, hstations]
  exact ⟨hstations ▸ h.tasks, hnames ▸ hgenerated ▸ h.taken_eq, hgenerated ▸ h.nodup,
    hgenerated ▸ h.new⟩

theorem Named.connect (h : s.Named nodes given) (stub : Stub) (target : VertexId) :
    (s.connect stub target).Named nodes given :=
  h.of_eq (by simp [stations, Sheet.connect, Graph.Edit.station?]) rfl

theorem Named.addTask (h : s.Named nodes given) {n : Node} (hn : n ∈ nodes) :
    (s.add (.addTask n.name n.task)).Named nodes given := by
  have hstations : (s.add (.addTask n.name n.task)).stations = s.stations ++ [n.station] := by
    simp [stations, Sheet.add, Graph.Edit.station?, Node.station]
  have hgenerated : (s.add (.addTask n.name n.task)).generated = s.generated := by
    simp [generated, hstations, Node.station, Role.isTask]
  constructor
  case tasks =>
    intro st hst htask
    rw [hstations] at hst
    rcases List.mem_append.mp hst with hst | hst
    · exact h.tasks st hst htask
    · exact ⟨n, hn, List.mem_singleton.mp hst⟩
  case taken_eq => rw [hgenerated]; exact h.taken_eq
  case nodup => rw [hgenerated]; exact h.nodup
  case new => rw [hgenerated]; exact h.new

theorem Named.addNamed (h : s.Named nodes given) (stem : Stem) {edit : String → Graph.Edit}
    (hedit : IsBuilt edit) : (s.addNamed stem edit).Named nodes given := by
  obtain ⟨role, hrole, hstation⟩ := hedit
  obtain ⟨hfree, hreserved⟩ := s.names.next_new stem
  have hstations : (s.addNamed stem edit).stations =
      s.stations ++ [((s.names.next stem).1, role)] := by
    simp [stations, Sheet.addNamed, Sheet.add, hstation]
  have hgenerated : (s.addNamed stem edit).generated =
      s.generated ++ [(s.names.next stem).1] := by
    simp [generated, hstations, hrole]
  rw [h.taken_eq, List.mem_append, List.mem_reverse, not_or] at hfree
  constructor
  case tasks =>
    intro st hst htask
    rw [hstations] at hst
    rcases List.mem_append.mp hst with hst | hst
    · exact h.tasks st hst htask
    · rw [List.mem_singleton.mp hst, hrole] at htask
      cases htask
  case taken_eq =>
    rw [hgenerated, List.reverse_append]
    exact congrArg ((s.names.next stem).1 :: ·) h.taken_eq
  case nodup =>
    rw [hgenerated, ← List.concat_eq_append]
    exact h.nodup.concat hfree.1
  case new =>
    intro name hname
    rw [hgenerated] at hname
    rcases List.mem_append.mp hname with hname | hname
    · exact h.new name hname
    · rw [List.mem_singleton.mp hname]
      exact ⟨hfree.2, hreserved⟩

theorem Named.openBlock (h : s.Named nodes given) {stem stem' : Stem}
    {edit edit' : String → Graph.Edit} (hedit : IsBuilt edit) (hedit' : IsBuilt edit')
    (stub : Stub) (target : VertexId) :
    (((s.addNamed stem edit).addNamed stem' edit').connect stub target).Named nodes given :=
  ((h.addNamed stem hedit).addNamed stem' hedit').connect stub target

end
end Sheet

section

variable {nodes : List Node} {given : List String}

theorem Sheet.isBuilt_fork : IsBuilt .addFork ∧ IsBuilt .addJoin :=
  ⟨⟨_, rfl, fun _ => rfl⟩, ⟨_, rfl, fun _ => rfl⟩⟩

theorem Sheet.isBuilt_decision : IsBuilt .addDecision ∧ IsBuilt .addDecisionJoin :=
  ⟨⟨_, rfl, fun _ => rfl⟩, ⟨_, rfl, fun _ => rfl⟩⟩

mutual

theorem Row.layout_named : ∀ (r : Row) (stub : Stub) (s : Sheet), r.nodes ⊆ nodes →
    s.Named nodes given → (r.layout stub s).2.Named nodes given
  | .done, _, _ => fun _ h => h
  | .task n next, stub, s => fun hsub h => by
    rw [Row.nodes, List.cons_subset] at hsub
    exact Row.layout_named next _ _ hsub.2 ((h.addTask hsub.1).connect stub s.next)
  | .fork arms next, stub, s => fun hsub h => by
    rw [Row.nodes, List.append_subset] at hsub
    exact Row.layout_named next _ _ hsub.2 (Arms.layout_named arms _ _ _ hsub.1
      (h.openBlock Sheet.isBuilt_fork.1 Sheet.isBuilt_fork.2 stub s.next))
  | .decision arms next, stub, s => fun hsub h => by
    rw [Row.nodes, List.append_subset] at hsub
    exact Row.layout_named next _ _ hsub.2 (Arms.layout_named arms _ _ _ hsub.1
      (h.openBlock Sheet.isBuilt_decision.1 Sheet.isBuilt_decision.2 stub s.next))

theorem Arms.layout_named : ∀ (arms : Arms) (opening closing : VertexId) (s : Sheet),
    arms.nodes ⊆ nodes → s.Named nodes given →
    (arms.layout opening closing s).Named nodes given
  | .none, _, _, _ => fun _ h => h
  | .arm c row more, opening, closing, s => fun hsub h => by
    rw [Arms.nodes, List.append_subset] at hsub
    exact Arms.layout_named more opening closing _ hsub.2
      ((Row.layout_named row ⟨opening, c⟩ s hsub.1 h).connect _ closing)

end
end

/-- The names that the layout of a row generates. -/
def Row.generated (r : Row) (taken : List String) : List String :=
  ((r.laidOut taken).filter fun st => !st.2.isTask).map Prod.fst

/-- Among the vertices of a layout, a task has the name of its node, and the generated names are new
and all different. -/
theorem Row.edits_named (r : Row) (taken : List String) :
    (∀ st ∈ r.laidOut taken, st.2.isTask = true → ∃ n ∈ r.nodes, st = n.station) ∧
    (r.generated taken).Nodup ∧
    ∀ name ∈ r.generated taken, name ∉ taken ∧ name ∉ Workflow.reservedNames := by
  let s : Sheet := (({ names := .start taken } : Sheet).add .addStart).add .addFinish
  have hs : s.Named r.nodes taken := ⟨by simp [s, Sheet.stations, Sheet.add, Graph.Edit.station?],
    rfl, List.nodup_nil, by simp [s, Sheet.generated, Sheet.stations, Sheet.add,
      Graph.Edit.station?]⟩
  have hrow := (r.layout_named ⟨0, none⟩ s (List.Subset.refl _) hs).connect
    (r.layout ⟨0, none⟩ s).1 1
  have hlast : r.laidOut taken =
      ((r.layout ⟨0, none⟩ s).2.connect (r.layout ⟨0, none⟩ s).1 1).stations := by
    have hedits : r.edits taken = ((r.layout ⟨0, none⟩ s).2.connect (r.layout ⟨0, none⟩ s).1
        1).edits ++ [.addKill] := rfl
    rw [Row.laidOut, hedits, List.filterMap_append]
    exact List.append_nil _
  rw [Row.generated, hlast]
  exact ⟨hrow.tasks, hrow.nodup, hrow.new⟩

end BatchFlow

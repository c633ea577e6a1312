import BatchFlow.Proofs.Fragment.Building
import BatchFlow.Proofs.Fragment.Settling
import BatchFlow.Proofs.Graph.Names
import BatchFlow.Proofs.Lowering.Wrapping
import BatchFlow.Proofs.Workflow.Whole

/-!
# Fragments lower

The dag of a fragment is one strand, and its names are numbered, so the workflow of all its nodes is
built and lowering finds nothing to blame. The graph has one task for each node and as many blocks
of each sort as the fragment asks for.
-/

namespace BatchFlow

/-- How many vertices of a graph carry the label of a role. -/
def Graph.countLabel (g : Graph) (label : String) : Nat :=
  g.vertices.countP (·.role.label = label)

theorem Graph.countLabel_eq (g : Graph) (role : Role)
    (hrole : role ∈ [.fork, .join, .decision, .decisionJoin]) :
    g.countLabel role.label = g.vertices.countP (·.role = role) := by
  refine List.countP_congr fun x _ => ?_
  simp only [List.mem_cons, List.not_mem_nil, or_false] at hrole
  rcases hrole with rfl | rfl | rfl | rfl <;> cases x.role <;> simp [Role.label]

/-! ## Counting tasks -/

namespace Row.Outlines

variable {w : Workflow} {r : Row} (hw : w.Sound) (ho : Row.Outlines w r) (name : String)
  (taken : List String)
include hw ho

theorem countLabel_action : (r.graph name taken).countLabel "action" = w.size := by
  have htask : ∀ site : Site, decide (site.2.label = "action") = site.node?.isSome := by
    rintro ⟨v, role⟩
    cases role <;> rfl
  have hcount := r.countP_graph name taken (f := (·.label = "action")) rfl rfl rfl
  refine hcount.trans ?_
  simp only [htask]
  rw [← List.length_filterMap_eq_countP, r.nodes_sites, Row.ids, List.length_map,
    (ho.nodes_perm hw).length_eq]
  rfl

end Row.Outlines

/-! ## Workflows that are a strand -/

namespace Workflow

variable {w : Workflow} (hw : w.Sound) {exit : Nat} {blocks : Role → Nat}
include hw

/-- The blocks of a strand behind the source that holds all nodes. -/
theorem Sound.settled_strand (role : Role) (hsize : exit + 1 = w.size)
    (hs : ∀ role, Strand w.dag.Enters role .source 0 exit (blocks role)) :
    w.Settled role 0 w.size (blocks role) (if w.opens .source = some role then 1 else 0) := by
  have hlt : exit < w.size := hsize ▸ Nat.lt_succ_self exit
  have hwithin : ∀ b c v, w.dag.Enters b c v → v ≤ exit := fun b c v hv =>
    Nat.le_of_lt_succ (Nat.lt_of_lt_of_eq hv.lt_size hsize.symm)
  have hclosed : Inflow.Closed w.dag.Enters .source 0 exit :=
    ⟨Nat.le_refl _, fun c v hv => ⟨Nat.zero_le v, hwithin _ c v hv⟩,
      fun u _ _ c v hv => hwithin _ c v hv⟩
  have hlast : ∀ c v, ¬ w.dag.Enters (.node exit) c v := fun c v hv => by
    have hforward : exit + 1 ≤ v := hw.dag.enters_forward _ c v hv
    exact Nat.not_succ_le_self exit (Nat.le_trans hforward (hwithin _ c v hv))
  have hexit := Settled.single role (Strand.not_crossedAt_exit hw (hs role) hclosed)
    (hw.not_lacksDefault_of_plain fun c v hv => absurd hv (hlast c v))
  rw [hw.opens_eq_none (t := exit) fun c v hv => absurd hv (hlast c v), if_neg (by simp),
    hsize] at hexit
  exact ((hs role).settled hw hclosed hlt).append hexit

theorem Sound.countP_opens (role : Role) :
    w.nodes.countP (fun n => w.opens (.node n.id) = some role) = w.openedBelow role w.size := by
  rw [openedBelow, ← hw.ids_eq, List.countP_map]
  rfl

/-- A strand behind the source is lowered, if no name is reserved. -/
theorem Sound.exists_lowered_strand (hsize : exit + 1 = w.size)
    (hs : ∀ role, Strand w.dag.Enters role .source 0 exit (blocks role))
    (hnames : ∀ name ∈ w.givenNames, name ∉ reservedNames) :
    ∃ r, Row.Outlines w r ∧ Graph.ofWorkflow w = .ok (r.graph w.name w.givenNames) ∧
      ∀ role : Role, role.Opens →
        (r.graph w.name w.givenNames).vertices.countP (·.role = role) = blocks role ∧
        (r.graph w.name w.givenNames).vertices.countP (·.role = role.closing) = blocks role := by
  cases hlow : Graph.ofWorkflow w with
  | error e =>
    have hfine := hw.settled_strand .fork hsize hs
    rcases hw.ofWorkflow_ends.bad_of_eq hlow with ⟨⟨name, hgiven, hres⟩, -⟩ | ⟨id, hlacks, -⟩ |
      ⟨x, hx, -⟩
    · exact absurd hres (hnames name hgiven)
    · have hlt : id < w.size := Dag.lt_size hlacks.choose_spec.1
      exact absurd hlacks (hfine.defaulted id (Nat.zero_le id) hlt)
    · exact absurd hx (hfine.uncrossed x (Nat.zero_le x) hx.1)
  | ok g =>
    obtain ⟨r, ho, rfl⟩ := hw.exists_graph hlow
    refine ⟨r, ho, rfl, fun role hopen => ?_⟩
    have hcount : (r.graph w.name w.givenNames).vertices.countP (·.role = role) = blocks role := by
      have hsettled := (hw.settled_strand role hsize hs).count
      rw [ho.countP_opening hw w.name w.givenNames hopen, hw.countP_opens]
      exact hsettled.symm.trans (Nat.zero_add _)
    obtain ⟨hopening, hclosing⟩ := r.countP_blocks_graph w.name w.givenNames hopen
    exact ⟨hcount, hclosing.trans (hopening.symm.trans hcount)⟩

end Workflow

/-! ## Names of a fragment -/

namespace Fragment.Assembly

variable {s : Assembly}

/-- A name tells the number of its node. -/
theorem number_eq_of_name {stem stem' : String} (hstem : stem ∈ stems) (hstem' : stem' ∈ stems)
    {m n : Nat} (h : stem ++ toString m = stem' ++ toString n) : m = n := by
  have hone : ∀ stem ∈ stems, stem.toList.length = 1 := by decide
  have hlists := congrArg String.toList h
  rw [String.toList_append, String.toList_append] at hlists
  have hdigits := (List.append_inj hlists ((hone _ hstem).trans (hone _ hstem').symm)).2
  exact eq_of_repr_eq (String.toList_injective hdigits)

theorem Fine.names_nodup (h : s.Fine) : (s.dag.nodes.map Node.name).Nodup := by
  refine List.Nodup.map_on ?_ (List.Nodup.of_map Node.id ?_)
  · intro n hn m hm heq
    obtain ⟨i, hi⟩ := Dag.mem_nodes_iff.mp hn
    obtain ⟨j, hj⟩ := Dag.mem_nodes_iff.mp hm
    obtain ⟨-, stem, hstem, hname⟩ := h.plain i n hi
    obtain ⟨-, stem', hstem', hname'⟩ := h.plain j m hj
    rw [hname, hname'] at heq
    obtain rfl : i = j := Nat.succ.inj (number_eq_of_name hstem hstem' heq)
    exact Option.some.inj (hi.symm.trans hj)
  · rw [h.sound.ids_eq]
    exact List.nodup_range

theorem Fine.not_reserved (h : s.Fine) {w : Workflow} (hw : w.dag = s.dag) :
    ∀ name ∈ w.givenNames, name ∉ Workflow.reservedNames := by
  have hstart : ∀ stem ∈ stems, ∀ name ∈ Workflow.reservedNames, ¬ stem.toList <+: name.toList := by
    decide
  intro name hname hreserved
  obtain ⟨n, hn, hname⟩ := List.mem_flatMap.mp hname
  obtain ⟨i, hi⟩ := Dag.mem_nodes_iff.mp (show n ∈ s.dag.nodes from hw ▸ hn)
  obtain ⟨hhandler, stem, hstem, heq⟩ := h.plain i n hi
  rw [hhandler] at hname
  obtain rfl : name = n.name := List.mem_singleton.mp hname
  refine hstart stem hstem _ hreserved ?_
  rw [heq, String.toList_append]
  exact List.prefix_append _ _

end Fragment.Assembly

/-- Whatever a fragment is, its dag is built and lowered, and the graph is complete: it has one task
for each node, and as many blocks of each sort as the fragment asks for. -/
theorem Fragment.build_lowers (f : Fragment) (name : String) : ∃ exit s w g,
    f.build .root {} = .ok (exit, s) ∧ s.dag.whole name = .ok w ∧ Graph.ofWorkflow w = .ok g ∧
      g.problems = [] ∧ (∀ n ∈ s.dag.nodes, ∃! v, g.Steps v n) ∧
      g.countLabel "action" = s.dag.size ∧
      g.countLabel "fork" = f.forks ∧ g.countLabel "join" = f.forks ∧
      g.countLabel "decision" = f.decisions ∧ g.countLabel "decision join" = f.decisions := by
  have hempty : Fragment.Assembly.Fine {} := ⟨.empty, rfl, fun i n hn => by cases hn⟩
  have hfree : Fragment.Assembly.Free {} .source := ⟨Nat.le_refl _, fun u hu => by cases hu⟩
  obtain ⟨exit, s, hbuild, hgrown, hlaid⟩ := f.exists_build hempty hfree
  have hfine := hgrown.fine
  obtain ⟨w, hwhole, hdag⟩ := hfine.sound.exists_whole hfine.names_nodup name
  have hw : w.Sound := by
    obtain ⟨draft, -, hmade⟩ := bind_eq_ok_iff.mp hwhole
    exact Workflow.Draft.sound_of_build hfine.sound hmade
  have hsize : exit + 1 = w.size := hlaid.size_eq.trans (congrArg Dag.size hdag.symm)
  have hstrand : ∀ role, Strand w.dag.Enters role .source 0 exit (f.blocks role) :=
    hdag ▸ hlaid.strand
  obtain ⟨r, ho, hlow, hblocks⟩ := hw.exists_lowered_strand hsize hstrand (hfine.not_reserved hdag)
  obtain ⟨hforks, hjoins⟩ := hblocks .fork (.inl rfl)
  obtain ⟨hdecisions, hmerges⟩ := hblocks .decision (.inr rfl)
  refine ⟨exit, s, w, _, hbuild, hwhole, hlow, ho.valid hw w.name w.givenNames, fun n hn => ?_,
    ?_, ?_, ?_, ?_, ?_⟩
  · exact ho.task_of_node hw w.name w.givenNames
      ((ho.mem_nodes_iff hw).mpr (show n ∈ w.dag.nodes from hdag ▸ hn))
  · exact (ho.countLabel_action hw w.name w.givenNames).trans (congrArg Dag.size hdag)
  · exact (Graph.countLabel_eq _ .fork (by decide)).trans hforks
  · exact (Graph.countLabel_eq _ .join (by decide)).trans hjoins
  · exact (Graph.countLabel_eq _ .decision (by decide)).trans hdecisions
  · exact (Graph.countLabel_eq _ .decisionJoin (by decide)).trans hmerges

end BatchFlow

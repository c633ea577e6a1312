import BatchFlow.Proofs.Lowering.Acceptance
import BatchFlow.Proofs.Lowering.Entered
import BatchFlow.Proofs.Lowering.Pass

/-!
# Lowering in one pass

A pass over the nodes makes the same graphs as lowering through an outline, and it stops with the
same errors. No connection is refused in it, not even on the way to an error.

What a pass has drawn so far is always the beginning of what some proper row draws: where a fault
cuts an arm short, the row with the cut arm for a last one is proper, too. So the proof takes the
pass along the walk that makes the outline and keeps only that the edits of any proper row from here
on are accepted.
-/

namespace BatchFlow

/-! ## A pass and a walk -/

/-- What the workflow itself is to blame for, rather than the bounds of a walk. -/
def Outline.Fault.InWorkflow : Outline.Fault → Prop
  | noDefault _ | metTwice _ => True
  | _ => False

/-- A part of a walk and a part of a pass end alike: both go well, or they fail for the same reason
and nothing was refused. -/
def Alike {α β : Type} (w : Workflow) (good : α → β → Pass → Prop) :
    Except Outline.Fault α → EStateM.Result GraphError Pass β → Prop
  | .ok a, .ok b s => good a b s
  | .error f, .error e s => s.refusals = [] ∧ (f.InWorkflow → e = f.toGraphError w)
  | _, _ => False

namespace Alike

variable {α α' β β' : Type} {w : Workflow} {good : α → β → Pass → Prop}
  {x : Except Outline.Fault α}

theorem bind {y : Lowering β} {s : Pass} {f : α → Except Outline.Fault α'} {g : β → Lowering β'}
    {goal : α' → β' → Pass → Prop} (h : Alike w good x (y s))
    (hf : ∀ a b s', good a b s' → Alike w goal (f a) (g b s')) :
    Alike w goal (x >>= f) ((y >>= g) s) := by
  cases hy : y s with
  | ok b s' =>
    rw [hy] at h
    rw [bind_of_ok hy]
    cases x with
    | ok a => exact hf a b s' h
    | error _ => exact h.elim
  | error e s' =>
    rw [hy] at h
    rw [bind_of_error hy]
    cases x with
    | ok _ => exact h.elim
    | error _ => exact h

/-- What the walk does with its answer in the end is no step of the pass. -/
theorem map {y : EStateM.Result GraphError Pass β} {f : α → α'} {goal : α' → β → Pass → Prop}
    (h : Alike w good x y) (hf : ∀ a b s, good a b s → goal (f a) b s) :
    Alike w goal (x >>= fun a => pure (f a)) y := by
  cases x with
  | ok a =>
    cases y with
    | ok b s => exact hf a b s h
    | error _ _ => exact h
  | error _ =>
    cases y with
    | ok _ _ => exact h
    | error _ _ => exact h

end Alike

/-- Whatever proper row is laid out behind the stub, its edits are accepted. -/
def Sheet.Ready (t : Sheet) (base : Graph) (stub : Stub) : Prop :=
  ∀ r : Row, r.Proper → base.Accepts (r.layout stub t).2.edits

theorem Sheet.Ready.append {t : Sheet} {base : Graph} {stub : Stub} (h : t.Ready base stub)
    {r : Row} (hr : r.Proper) : (r.layout stub t).2.Ready base (r.layout stub t).1 := by
  intro next hnext
  rw [← Row.layout_append]
  exact h _ (Row.proper_append r hr hnext)

/-- The pass has lowered a proper row behind the stub. -/
structure Pass.Lays (base : Graph) (t : Sheet) (stub : Stub) (seen : List NodeId) (r : Row)
    (out : Stub) (s : Pass) : Prop where
  proper : r.Proper
  out_eq : out = (r.layout stub t).1
  mirrors : s.Mirrors base (r.layout stub t).2
  lowered_eq : s.lowered = seen ++ r.ids

/-- A chain does in a pass what a walk does without one. -/
def Lowers (w : Workflow) (base : Graph) (walk : Outline.Walk) (chain : Lowering.Chain) : Prop :=
  ∀ (head stop : NodeId) (stub : Stub) (t : Sheet) (s : Pass), s.Mirrors base t →
    t.Ready base stub → Alike w (Pass.Lays base t stub s.lowered) (walk head stop s.lowered)
      (chain head stop stub s)

/-- Arms that may be cut off behind any of them are accepted. -/
def Sheet.ReadyArms (t : Sheet) (base : Graph) (opening closing : VertexId)
    (conditions : List (Option Condition)) : Prop :=
  ∀ arms : Arms, arms.Proper → arms.conditions <+: conditions → arms.conditions ≠ [] →
    base.Accepts (arms.layout opening closing t).edits

/-- The pass has lowered the arms for all conditions. -/
structure Pass.LaysArms (base : Graph) (t : Sheet) (opening closing : VertexId)
    (conditions : List (Option Condition)) (seen : List NodeId) (arms : Arms) (s : Pass) :
    Prop where
  proper : arms.Proper
  conditions_eq : arms.conditions = conditions
  mirrors : s.Mirrors base (arms.layout opening closing t)
  lowered_eq : s.lowered = seen ++ arms.ids

namespace Lowers

variable {w : Workflow} {base : Graph} {walk : Outline.Walk} {chain : Lowering.Chain}
  (hchain : Lowers w base walk chain) (merge : NodeId) {t : Sheet} {s : Pass}
  {heads : List (NodeId × Option Condition)}
include hchain

theorem arms {opening closing : VertexId} (hs : s.Mirrors base t)
    (hready : t.ReadyArms base opening closing (heads.map Prod.snd)) :
    Alike w (fun arms _ s' =>
        s'.LaysArms base t opening closing (heads.map Prod.snd) s.lowered arms)
      (Outline.armsOf walk merge heads s.lowered)
      (Lowering.arms chain merge opening closing heads s) := by
  induction heads generalizing t s with
  | nil => exact ⟨trivial, rfl, hs, by simp⟩
  | cons h rest ih =>
    obtain ⟨head, c⟩ := h
    -- If the pass stops in this arm, the arm is the last one.
    have hone : ∀ row : Row, row.Proper → base.Accepts
        ((row.layout ⟨opening, c⟩ t).2.connect (row.layout ⟨opening, c⟩ t).1 closing).edits := by
      intro row hrow
      refine hready (.arm c row .none) ⟨hrow, trivial⟩ ?_ (List.cons_ne_nil _ _)
      exact (List.prefix_cons_inj c).mpr List.nil_prefix
    have hfirst := hchain head merge ⟨opening, c⟩ t s hs
      fun row hrow => (hone row hrow).cut (List.prefix_append _ _)
    refine hfirst.bind fun row out s₁ hlays => ?_
    obtain ⟨hrow, rfl, hs₁, hlowered⟩ := hlays
    obtain ⟨s₂, hattach, hs₂, hsame⟩ := hs₁.attach (hone row hrow)
    rw [bind_of_ok hattach]
    have hmore := ih hs₂ fun more hmore hconditions _ =>
      hready (.arm c row more) ⟨hrow, hmore⟩ ((List.prefix_cons_inj c).mpr hconditions)
        (List.cons_ne_nil _ _)
    rw [hsame, hlowered] at hmore
    refine hmore.map fun more _ s₃ h => ?_
    refine ⟨⟨hrow, h.proper⟩, congrArg (c :: ·) h.conditions_eq, h.mirrors, ?_⟩
    rw [h.lowered_eq, Arms.ids_arm, List.append_assoc]

/-- A block, whatever its ends are, that the sheet opens in the same way. -/
theorem enclose (stub : Stub) (opens closes : Stem × Role) (edit edit' : String → Graph.Edit)
    (hheads : heads ≠ []) (hopens : ∀ name, (edit name).station? = some (name, opens.2))
    (hcloses : ∀ name, (edit' name).station? = some (name, closes.2)) (hs : s.Mirrors base t)
    {t' : Sheet}
    (ht' : ((t.addNamed opens.1 edit).addNamed closes.1 edit').connect stub t.next = t')
    (hready : t'.ReadyArms base t.next (t.next + 1) (heads.map Prod.snd)) :
    Alike w (fun arms out s' => out = ⟨t.next + 1, none⟩ ∧
        s'.LaysArms base t' t.next (t.next + 1) (heads.map Prod.snd) s.lowered arms)
      (Outline.armsOf walk merge heads s.lowered)
      (Lowering.enclose chain opens closes merge heads stub s) := by
  subst ht'
  obtain ⟨s₁, hopening, hs₁, hlowered₁⟩ := hs.addNamed opens.1 hopens
  obtain ⟨s₂, hclosing, hs₂, hlowered₂⟩ := hs₁.addNamed closes.1 hcloses
  obtain ⟨c, conditions, hcons⟩ := List.exists_cons_of_ne_nil (mt List.map_eq_nil_iff.mp hheads)
  have hempty := hready (.arm c .done .none) ⟨trivial, trivial⟩
    (hcons ▸ (List.prefix_cons_inj c).mpr List.nil_prefix) (List.cons_ne_nil _ _)
  obtain ⟨s₃, hattach, hs₃, hlowered₃⟩ := hs₂.attach
    (hempty.cut (Arms.edits_prefix_layout _ _ _ _))
  have harms := hchain.arms merge hs₃ hready
  rw [hlowered₃, hlowered₂, hlowered₁] at harms
  unfold Lowering.enclose
  rw [bind_of_ok hopening, bind_of_ok hclosing, bind_of_ok hattach,
    ← bind_pure (Outline.armsOf walk merge heads s.lowered)]
  exact harms.bind fun arms _ s' h => ⟨rfl, h⟩

theorem parallel (stub : Stub) (ids : List NodeId) (hs : s.Mirrors base t)
    (hready : t.Ready base stub) :
    Alike w (Pass.Lays base t stub s.lowered) (Outline.parallel walk ids merge s.lowered)
      (Lowering.parallel chain ids merge stub s) := by
  unfold Outline.parallel Lowering.parallel
  match ids.filter (· ≠ merge) with
  | [] => exact ⟨trivial, rfl, hs, by simp⟩
  | [head] => exact hchain head merge stub t s hs hready
  | first :: second :: rest =>
    let heads : List (NodeId × Option Condition) := (first :: second :: rest).map (·, none)
    have hplain : ∀ c ∈ heads.map Prod.snd, c = none := by simp [heads]
    refine (hchain.enclose merge stub (.fork, .fork) (.join, .join) .addFork .addJoin
      (List.cons_ne_nil _ _) (fun _ => rfl) (fun _ => rfl) hs rfl ?_).map ?_
    · intro arms harms hcut hne
      exact hready (.fork arms .done)
        ⟨⟨hne, fun c hc => hplain c (hcut.subset hc)⟩, harms, trivial⟩
    · rintro arms out s' ⟨rfl, h⟩
      refine ⟨⟨⟨?_, ?_⟩, h.proper, trivial⟩, rfl, h.mirrors, ?_⟩
      · rw [h.conditions_eq]
        exact List.cons_ne_nil _ _
      · rw [h.conditions_eq]
        exact hplain
      · simpa using h.lowered_eq

theorem choice (stub : Stub) {id : NodeId} {n : Node} (hw : w.Sound) (hn : w.node? id = some n)
    (hsome : n.conditionalChildren ≠ []) (hs : s.Mirrors base t) (hready : t.Ready base stub) :
    Alike w (Pass.Lays base t stub s.lowered) (Outline.choice walk n merge s.lowered)
      (Lowering.choice chain n merge stub s) := by
  unfold Outline.choice Lowering.choice
  by_cases hdefault : n.defaultChild?.isNone = true
  · rw [if_pos hdefault, if_pos hdefault]
    refine ⟨hs.refusals, fun _ => ?_⟩
    rw [Outline.Fault.toGraphError, hw.dag.id_eq id n hn, Workflow.nameOf_eq hn]
  · rw [if_neg hdefault, if_neg hdefault]
    let heads := n.conditionalChildren.map fun b => (b.node, some b.condition)
    have hconditions : heads.map Prod.snd = n.conditionalChildren.map (some ·.condition) := by
      simp [heads, Function.comp_def]
    have hchosen : ∀ c ∈ heads.map Prod.snd, c.isSome = true := by
      rw [hconditions]
      simp
    have hone : (heads.map Prod.snd).countP (·.any Condition.isDefault) ≤ 1 := by
      rw [hconditions, List.countP_map]
      simpa [Function.comp_def] using (hw.dag.tidy id n hn).one_default
    refine (hchain.enclose merge stub (.decision, .decision) (.decisionJoin, .decisionJoin)
      .addDecision .addDecisionJoin (mt List.map_eq_nil_iff.mp hsome) (fun _ => rfl)
      (fun _ => rfl) hs rfl ?_).map ?_
    · intro arms harms hcut hne
      exact hready (.decision arms .done) ⟨⟨hne, fun c hc => hchosen c (hcut.subset hc),
        Nat.le_trans hcut.sublist.countP_le hone⟩, harms, trivial⟩
    · rintro arms out s' ⟨rfl, h⟩
      refine ⟨⟨⟨?_, ?_, ?_⟩, h.proper, trivial⟩, rfl, h.mirrors, ?_⟩
      · rw [h.conditions_eq]
        simpa using hsome
      · rw [h.conditions_eq]
        exact hchosen
      · rw [h.conditions_eq]
        exact hone
      · simpa using h.lowered_eq

theorem block (stub : Stub) {id : NodeId} {n : Node} (hw : w.Sound) (hn : w.node? id = some n)
    (hs : s.Mirrors base t) (hready : t.Ready base stub) :
    Alike w (Pass.Lays base t stub s.lowered) (Outline.block walk n merge s.lowered)
      (Lowering.block chain n merge stub s) := by
  unfold Outline.block Lowering.block
  by_cases hnil : n.conditionalChildren.isEmpty = true
  · rw [if_pos hnil, if_pos hnil]
    exact hchain.parallel merge stub n.plainChildren hs hready
  · rw [if_neg hnil, if_neg hnil]
    exact hchain.choice merge stub hw hn (by simpa using hnil) hs hready

end Lowers

/-- A chain does what a walk does, also when it is some way behind its first node. -/
theorem Lowering.chain_alike {w : Workflow} (hw : w.Sound) {base : Graph} (m : MergePoints)
    (bound : Nat) (first id stop : NodeId) {stub : Stub} {t : Sheet} {s : Pass}
    (hs : s.Mirrors base t) (hready : t.Ready base stub) :
    Alike w (Pass.Lays base t stub s.lowered) (Outline.walk w m bound id stop s.lowered)
      (Lowering.chain w m bound first id stop stub s) := by
  induction bound generalizing first id stop stub t s with
  | zero => exact ⟨hs.refusals, False.elim⟩
  | succ bound ih =>
    unfold Outline.walk Lowering.chain
    by_cases hstop : id = stop
    · rw [if_pos hstop, if_pos hstop]
      exact ⟨trivial, rfl, hs, by simp⟩
    rw [if_neg hstop, if_neg hstop]
    cases hn : w.node? id with
    | none => exact ⟨hs.refusals, False.elim⟩
    | some n =>
      by_cases hseen : s.lowered.contains id = true
      · have hmet : addNode id n s = .error (.unstructuredBranch n.name) s := if_pos hseen
        simp only
        rw [if_pos hseen, bind_of_error hmet]
        refine ⟨hs.refusals, fun _ => ?_⟩
        rw [Outline.Fault.toGraphError, Workflow.nameOf_eq hn]
      · obtain ⟨s₁, hnode, hs₁, hlowered₁⟩ := hs.addNode n hseen
        obtain ⟨s₂, hattach, hs₂, hlowered₂⟩ := hs₁.attach (hready (.task n .done) trivial)
        have hready₂ : ((t.add (.addTask n.name n.task)).connect stub t.next).Ready base
            ⟨t.next, none⟩ := fun r hr => hready (.task n r) hr
        have hwalk : Lowers w base (Outline.walk w m bound)
            (fun head => Lowering.chain w m bound head head) :=
          fun head stop stub t s hs hready => ih head head stop hs hready
        have hblock := hwalk.block (m.ofNode id) ⟨t.next, none⟩ hw hn hs₂ hready₂
        rw [hlowered₂, hlowered₁] at hblock
        simp only
        rw [if_neg hseen, bind_of_ok hnode, bind_of_ok hattach]
        refine hblock.bind fun inner out s₃ hinner => ?_
        obtain ⟨hproper, rfl, hs₃, hlowered₃⟩ := hinner
        have hnext := ih first (m.ofNode id) stop hs₃ (hready₂.append hproper)
        rw [hlowered₃] at hnext
        refine hnext.map fun next out s₄ h => ?_
        obtain ⟨hproper', rfl, hs₄, hlowered₄⟩ := h
        rw [← Row.layout_append] at hs₄
        refine ⟨Row.proper_append inner hproper hproper', ?_, hs₄, ?_⟩
        · rw [← Row.layout_append]
          rfl
        · rw [hlowered₄, Row.ids_task, Row.ids_append, hw.dag.id_eq id n hn]
          simp

/-- Between the start and the end, any proper row is accepted. -/
theorem Row.Proper.accepts {r : Row} (hr : r.Proper) (name : String) (taken : List String) :
    ({ name } : Graph).Accepts (r.edits taken) := ⟨_, r.performAll_edits hr name taken⟩

theorem Lowering.run_alike {w : Workflow} (hw : w.Sound) (m : MergePoints) (taken : List String) :
    Alike w (fun r g s => s.refusals = [] ∧
        ({ name := w.name } : Graph).performAll (r.edits taken) = .ok g)
      (Outline.ofMergePoints w m)
      (Lowering.run w m { graph := { name := w.name }, names := .start taken }) := by
  let base : Graph := { name := w.name }
  let t : Sheet := (({ names := .start taken } : Sheet).add .addStart).add .addFinish
  let s : Pass := { graph := base.addStart.addFinish, names := .start taken }
  have hs : s.Mirrors base t := ⟨rfl, rfl, rfl, rfl⟩
  have hwire : ∀ r : Row, r.Proper → base.Accepts
      ((r.layout ⟨0, none⟩ t).2.connect (r.layout ⟨0, none⟩ t).1 1).edits :=
    fun r hr => (hr.accepts w.name taken).cut (List.prefix_append _ _)
  have hready : t.Ready base ⟨0, none⟩ :=
    fun r hr => (hwire r hr).cut (List.prefix_append _ _)
  have hwalk : Lowers w base (Outline.walk w m (w.size + 1))
      (fun head => Lowering.chain w m (w.size + 1) head head) :=
    fun head stop stub t s hs hready => chain_alike hw m _ head head stop hs hready
  have hstart : add Graph.addStart { graph := base, names := .start taken } =
      .ok 0 { graph := base.addStart, names := .start taken } := rfl
  have hfinish : add Graph.addFinish { graph := base.addStart, names := .start taken } =
      .ok 1 s := rfl
  unfold Outline.ofMergePoints Lowering.run
  rw [bind_of_ok hstart, bind_of_ok hfinish]
  refine (hwalk.parallel (m.ofAll w.roots) ⟨0, none⟩ w.roots hs hready).bind
    fun opening out s₁ h₁ => ?_
  obtain ⟨hopening, rfl, hs₁, hlowered₁⟩ := h₁
  rw [List.nil_append] at hlowered₁
  have hrest := hwalk (m.ofAll w.roots) m.sink _ _ s₁ hs₁ (hready.append hopening)
  rw [hlowered₁] at hrest
  refine hrest.bind fun rest out s₂ h₂ => ?_
  obtain ⟨hproper, rfl, hs₂, hlowered₂⟩ := h₂
  rw [← Row.layout_append] at hs₂ ⊢
  have hrow := Row.proper_append opening hopening hproper
  obtain ⟨s₃, hattach, hs₃, hlowered₃⟩ := hs₂.attach (hwire _ hrow)
  rw [hlowered₂, ← Row.ids_append] at hlowered₃
  rw [bind_of_ok hattach]
  have hkill : add Graph.addKill s₃ =
      .ok s₃.graph.size { s₃ with graph := s₃.graph.addKill } := rfl
  have hget : (get : Lowering Pass) { s₃ with graph := s₃.graph.addKill } =
      .ok { s₃ with graph := s₃.graph.addKill } { s₃ with graph := s₃.graph.addKill } := rfl
  rw [bind_of_ok hkill, bind_of_ok hget]
  cases hfind : (List.range w.size).find? fun id => !(opening.append rest).ids.contains id with
  | some id =>
    simp only [hlowered₃, hfind]
    exact ⟨hs₃.refusals, False.elim⟩
  | none =>
    simp only [hlowered₃, hfind]
    refine ⟨hs₃.refusals, ?_⟩
    show base.performAll (_ ++ [Graph.Edit.addKill]) = .ok s₃.graph.addKill
    rw [performAll_append, hs₃.graph]
    rfl

theorem Outline.Fault.LiesIn.inWorkflow {w : Workflow} {met : NodeId → Prop} {f : Outline.Fault}
    (h : f.LiesIn w met) : f.InWorkflow := by
  cases f with
  | noDefault | metTwice => trivial
  | _ => exact h

/-- A pass that ends as the walk does answers what the walk and the steps behind it do. -/
theorem Alike.exists_eq {α β : Type} {w : Workflow} {x : Except Outline.Fault α}
    {y : EStateM.Result GraphError Pass β} {f : α → Except GraphError β}
    (h : Alike w (fun a b s => s.refusals = [] ∧ f a = .ok b) x y)
    (hx : ∀ e, x = .error e → e.InWorkflow) : ∃ s : Pass, s.refusals = [] ∧
      y = answer (x.mapError (·.toGraphError w) >>= f) s := by
  cases x with
  | ok a =>
    cases y with
    | ok b s =>
      obtain ⟨hrefusals, hf⟩ := h
      refine ⟨s, hrefusals, ?_⟩
      show EStateM.Result.ok b s = answer (f a) s
      rw [hf]
      rfl
    | error _ _ => exact h.elim
  | error e =>
    cases y with
    | ok _ _ => exact h.elim
    | error e' s =>
      refine ⟨s, h.1, ?_⟩
      rw [h.2 (hx e rfl)]
      rfl

/-- A pass ends as lowering through an outline does, and nothing was refused. -/
theorem Workflow.Sound.lowering_eq {w : Workflow} (hw : w.Sound) : ∃ s : Pass, s.refusals = [] ∧
    Lowering.ofWorkflow w (.ofWorkflow w) = answer (Graph.ofWorkflow w) s := by
  unfold Lowering.ofWorkflow Graph.ofWorkflow Workflow.outline
  rw [hw.topologicalOrder_eq]
  cases w.checkNames with
  | error e => exact ⟨.ofWorkflow w, rfl, rfl⟩
  | ok taken =>
    have halike := Lowering.run_alike hw w.mergePoints taken
    exact halike.exists_eq fun f hf => ((Outline.ofMergePoints_ends hw).bad_of_eq hf).inWorkflow

/-- Lowering in one pass makes the graph that lowering through an outline makes, or fails for the
same reason, of which there are three. On either way no connection is refused. -/
theorem Workflow.Built.lowered_in_one_pass {w : Workflow} (h : w.Built) :
    (∀ g, Graph.ofWorkflow w = .ok g →
      ∃ s, Lowering.ofWorkflow w (.ofWorkflow w) = .ok g s ∧ s.refusals = []) ∧
    ∀ e, Graph.ofWorkflow w = .error e →
      (∃ s, Lowering.ofWorkflow w (.ofWorkflow w) = .error e s ∧ s.refusals = []) ∧
        ((∃ name, e = .reservedName name) ∨ (∃ name, e = .missingDefault name) ∨
          ∃ name, e = .unstructuredBranch name) := by
  have hw := h.sound
  obtain ⟨s, hrefusals, hpass⟩ := hw.lowering_eq
  constructor
  · intro g hg
    rw [hg] at hpass
    exact ⟨s, hpass, hrefusals⟩
  · intro e he
    rw [he] at hpass
    refine ⟨⟨s, hpass, hrefusals⟩, ?_⟩
    rcases hw.ofWorkflow_ends.bad_of_eq he with ⟨-, name, rfl⟩ | ⟨id, -, rfl⟩ | ⟨x, -, rfl⟩
    · exact .inl ⟨name, rfl⟩
    · exact .inr (.inl ⟨_, rfl⟩)
    · exact .inr (.inr ⟨_, rfl⟩)

/-- The one workflow is lowered. The other is refused in the third of its forks, when all that comes
before is connected. -/
theorem Workflow.nightly_crossing_in_one_pass :
    (∃ s, Lowering.ofWorkflow nightly (.ofWorkflow nightly) = .ok .nightly s ∧ s.refusals = []) ∧
    (∃ s, Lowering.ofWorkflow crossing (.ofWorkflow crossing) =
      .error (.unstructuredBranch "sum") s ∧ s.refusals = []) := by
  obtain ⟨hnightly, -⟩ := nightly_built.lowered_in_one_pass
  obtain ⟨-, hcrossing⟩ := crossing_built.lowered_in_one_pass
  exact ⟨hnightly .nightly Graph.ofWorkflow_nightly, (hcrossing (.unstructuredBranch "sum") rfl).1⟩

end BatchFlow

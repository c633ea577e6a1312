import BatchFlow.Lowering
import BatchFlow.Proofs.Outline.Walk

/-!
# Outlines exist exactly for structured workflows

A row that outlines a workflow holds no node twice, so the branches of a place have nothing in
common before they merge. Then a node with two parents is the merge point of its immediate
dominator. In the other direction, a node that ends the walk is crossed, and a crossed node is the
merge point of none of its dominators.
-/

namespace BatchFlow
namespace Workflow

/-- The node is where the branches of its immediate dominator come together. -/
def MergesAt (w : Workflow) (id : NodeId) : Prop :=
  ∃ d, ImmediateDominator w.Flow .source d (.node id) ∧
    ImmediatePostDominator w.Flow w.sink (.node id) d

theorem CrossedAt.not_mergesAt {w : Workflow} {x : NodeId} (h : w.CrossedAt x) :
    ¬ w.MergesAt x := by
  intro hmerges
  obtain ⟨d, hdom, hpost⟩ := hmerges
  exact h.2.2 d hdom.ne hdom.passed hpost.passed

/-- The outline of a workflow, or what is wrong with the workflow. -/
theorem Sound.outline_ends {w : Workflow} (hw : w.Sound) :
    Ends (Row.Outlines w) (fun e => (∃ id, w.LacksDefault id ∧ e = .missingDefault (w.nameOf id)) ∨
      ∃ x, w.CrossedAt x ∧ e = .unstructuredBranch (w.nameOf x)) w.outline := by
  unfold outline
  rw [hw.topologicalOrder_eq]
  refine (Outline.ofMergePoints_ends hw).mapError fun f hf => ?_
  cases f with
  | noDefault id => exact .inl ⟨id, hf, rfl⟩
  | metTwice id => exact .inr ⟨id, hf.resolve_right not_false, rfl⟩
  | _ => exact hf.elim

end Workflow

variable {w : Workflow}

/-! ### Every place is bridged -/

mutual

/-- In a row that traces a stretch, every node is followed by a row that bridges it. -/
theorem Row.Traces.exists_bridges {id stop : NodeId} {r : Row} : Row.Traces w id stop r →
    w.Sound → ∀ x : Nat, x ∈ r.ids →
      ∃ inner, Row.Bridges w (.node x) inner ∧ inner.ids.Sublist r.ids
  | .done _, _ => fun x hx => by cases hx
  | @Row.Traces.task _ id stop n inner next hne hn hb ht, hw => fun x hx => by
    rw [Row.ids_task, Row.ids_append] at hx ⊢
    rcases List.mem_cons.mp hx with rfl | hx
    · rw [hw.dag.id_eq id n hn]
      exact ⟨inner, hb, (List.sublist_append_left _ _).cons _⟩
    · rcases List.mem_append.mp hx with hx | hx
      · obtain ⟨row, hrow, hsub⟩ := Row.Bridges.exists_bridges hb hw x hx
        exact ⟨row, hrow, (hsub.trans (List.sublist_append_left _ _)).cons _⟩
      · obtain ⟨row, hrow, hsub⟩ := Row.Traces.exists_bridges ht hw x hx
        exact ⟨row, hrow, (hsub.trans (List.sublist_append_right _ _)).cons _⟩

theorem Row.Bridges.exists_bridges {a : Place} {r : Row} : Row.Bridges w a r →
    w.Sound → ∀ x : Nat, x ∈ r.ids →
      ∃ inner, Row.Bridges w (.node x) inner ∧ inner.ids.Sublist r.ids
  | .skip _ _, _ => fun x hx => by cases hx
  | .single _ _ ht, hw => Row.Traces.exists_bridges ht hw
  | .fork _ _ ht, hw
  | .decision _ ht, hw => by
    simp only [Row.ids_fork, Row.ids_decision, Row.ids_done, List.append_nil]
    exact Arms.Traces.exists_bridges ht hw

theorem Arms.Traces.exists_bridges {merge : NodeId} {heads : List (NodeId × Option Condition)}
    {arms : Arms} : Arms.Traces w merge heads arms → w.Sound → ∀ x : Nat, x ∈ arms.ids →
      ∃ inner, Row.Bridges w (.node x) inner ∧ inner.ids.Sublist arms.ids
  | .none _, _ => fun x hx => by cases hx
  | .arm ht hmore, hw => fun x hx => by
    rw [Arms.ids_arm] at hx ⊢
    rcases List.mem_append.mp hx with hx | hx
    · obtain ⟨row, hrow, hsub⟩ := Row.Traces.exists_bridges ht hw x hx
      exact ⟨row, hrow, hsub.trans (List.sublist_append_left _ _)⟩
    · obtain ⟨row, hrow, hsub⟩ := Arms.Traces.exists_bridges hmore hw x hx
      exact ⟨row, hrow, hsub.trans (List.sublist_append_right _ _)⟩

end

/-! ### Branches have nothing in common -/

theorem Arms.Traces.head_unique (hw : w.Sound) {merge x : Nat}
    {heads : List (NodeId × Option Condition)} {arms : Arms} :
    Arms.Traces w merge heads arms →
    (∀ h ∈ heads, h.1 ≤ w.size ∧ w.Stops merge (.node h.1)) → arms.ids.Nodup →
    ∀ h ∈ heads, ∀ k ∈ heads, w.On (.node h.1) merge x → w.On (.node k.1) merge x → h = k
  | .none _, _, _ => fun h hh => by cases hh
  | @Arms.Traces.arm _ merge head condition row heads more ht hmore, hstops, hnodup => by
    obtain ⟨hle, hs⟩ := hstops _ List.mem_cons_self
    have hstops' : ∀ h ∈ heads, h.1 ≤ w.size ∧ w.Stops merge (.node h.1) :=
      fun h hh => hstops h (List.mem_cons_of_mem _ hh)
    rw [Arms.ids_arm, List.nodup_append] at hnodup
    have hfirst := ht.mem_ids hw hle hs x
    have hrest := hmore.mem_ids hw hstops' x
    have hapart : ∀ k ∈ heads, w.On (.node k.1) merge x → x ∉ _ :=
      fun k hk hkx hx => hnodup.2.2 x hx x (hrest.mpr ⟨k, hk, hkx⟩) rfl
    intro h hh k hk hhx hkx
    rcases List.mem_cons.mp hh with rfl | hh <;> rcases List.mem_cons.mp hk with rfl | hk
    · rfl
    · exact absurd (hfirst.mpr hhx) (hapart k hk hkx)
    · exact absurd (hfirst.mpr hkx) (hapart h hh hhx)
    · exact Arms.Traces.head_unique hw hmore hstops' hnodup.2.1 h hh k hk hhx hkx

/-- Only one way out of a place leads to a node that comes before the merge point. -/
theorem Row.Bridges.branch_unique (hw : w.Sound) {a : Place} {r : Row} (hb : Row.Bridges w a r)
    (ha : a.rank ≤ w.size) (hnodup : r.ids.Nodup) {c d x : Nat} (hc : c ∈ w.next a)
    (hd : d ∈ w.next a) (hcx : w.On (.node c) (w.mergeOf a) x)
    (hdx : w.On (.node d) (w.mergeOf a) x) : c = d := by
  have hne : ∀ b : Nat, w.On (.node b) (w.mergeOf a) x → b ≠ w.mergeOf a := by
    rintro b hb rfl
    exact Workflow.not_on_self hb
  obtain ⟨h, hh, rfl⟩ := hw.exists_branch_of_ne hc (hne c hcx)
  obtain ⟨k, hk, rfl⟩ := hw.exists_branch_of_ne hd (hne d hdx)
  have hstops := hw.branches_stop ha
  refine congrArg Prod.fst (?_ : h = k)
  cases hb with
  | skip _ hnil =>
    rw [hnil] at hh
    cases hh
  | single _ hone _ =>
    rw [hone, List.mem_singleton] at hh hk
    exact hh.trans hk.symm
  | fork _ _ ht
  | decision _ ht =>
    simp only [Row.ids_fork, Row.ids_decision, Row.ids_done, List.append_nil] at hnodup
    exact Arms.Traces.head_unique hw ht hstops hnodup h hh k hk hcx hdx

namespace Row.Outlines

variable {r : Row} (ho : Row.Outlines w r) (hw : w.Sound)
include ho hw

theorem exists_bridges {a : Place} (ha : a.rank ≤ w.size) :
    ∃ inner, Row.Bridges w a inner ∧ inner.ids.Nodup := by
  cases ho with
  | @mk opening rest hb ht hnodup =>
    have hmem := Outline.mem_ids_append hw hb ht
    rw [Row.ids_append] at hnodup hmem
    cases a with
    | source => exact ⟨opening, hb, hnodup.sublist (List.sublist_append_left _ _)⟩
    | node x =>
      rcases List.mem_append.mp ((hmem x).mpr ha) with hx | hx
      · obtain ⟨inner, hinner, hsub⟩ := hb.exists_bridges hw x hx
        exact ⟨inner, hinner, hnodup.sublist (hsub.trans (List.sublist_append_left _ _))⟩
      · obtain ⟨inner, hinner, hsub⟩ := ht.exists_bridges hw x hx
        exact ⟨inner, hinner, hnodup.sublist (hsub.trans (List.sublist_append_right _ _))⟩

theorem not_lacksDefault (id : NodeId) : ¬ w.LacksDefault id := by
  rintro ⟨n, hn, hcond, hdefault⟩
  have hchoices := Workflow.choices_node hn
  obtain ⟨inner, hb, -⟩ := ho.exists_bridges hw (Workflow.rank_le hn)
  have hplain : w.choices (.node id) ≠ [] := hchoices ▸ hcond
  cases hb with
  | skip h _ => exact hplain h
  | single h _ _ => exact hplain h
  | fork h _ _ => exact hplain h
  | decision h _ =>
    obtain ⟨b, hb, hdef⟩ := h
    rw [hchoices] at hb
    have hzero := List.countP_eq_zero.mp (Node.defaultChild?_eq_none_iff.mp hdefault)
    exact hzero b hb hdef

/-- A node with two parents is where the branches of its immediate dominator come together. -/
theorem mergesAt {id : Nat} {n : Node} (hn : w.node? id = some n)
    (htwo : 2 ≤ n.parents.length) : w.MergesAt id := by
  have hid : id < w.size := Dag.lt_size hn
  have hsource := hw.source_leads (Nat.le_of_lt hid)
  have hsink : Leads w.Flow (.node id) w.sink := hw.leads_sink (Nat.succ_le_succ (Nat.le_of_lt hid))
  obtain ⟨d, hdom⟩ := exists_immediateDominator hw.ranked hsource (by simp)
  have hrank : d.rank ≤ w.size := by
    have hlt := (hw.ranked.eq_or_lt (hdom.passed.leads_right hsource)).resolve_left hdom.ne
    have : (Place.node id).rank = id + 1 := rfl
    omega
  have hpost := hw.immediatePostDominator_mergeOf hrank
  obtain ⟨inner, hb, hnodup⟩ := ho.exists_bridges hw hrank
  obtain ⟨p, q, hpq, hp, hq⟩ := (hw.two_parents_iff hn).mpr htwo
  have hback : ∀ a, w.Flow a (.node id) → Leads w.Flow .source a := by
    intro a ha
    cases a with
    | source => exact .refl
    | node u =>
      have := hw.ranked _ _ ha
      simp only [Place.rank] at this
      exact hw.source_leads (by omega)
  -- Two ways out of the dominator that meet before they merge would be the same way.
  have heq : Place.node (w.mergeOf d) = .node id := by
    refine eq_of_immediateDominator hw.ranked hsource hsink hdom hpost ?_ hpq hp hq (hback p hp)
      (hback q hq)
    intro a b ha hb' hne hax hbx
    by_contra hmx
    cases ha with
    | edge ha =>
      cases hb' with
      | edge hb' =>
        have := hb.branch_unique hw hrank hnodup ha hb' ⟨hax, hmx⟩ ⟨hbx, hmx⟩
        exact hne (congrArg Place.node this)
      | leaf _ hnil =>
        rw [hnil] at ha
        cases ha
    | leaf _ hnil =>
      cases hb' with
      | edge hb' =>
        rw [hnil] at hb'
        cases hb'
      | leaf _ _ => exact hne rfl
  exact ⟨d, hdom, heq ▸ hpost⟩

end Row.Outlines
end BatchFlow

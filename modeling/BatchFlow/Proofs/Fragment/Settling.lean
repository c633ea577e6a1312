import BatchFlow.Proofs.Fragment.Strand
import BatchFlow.Proofs.Lowering.Counting
import BatchFlow.Proofs.Region
import BatchFlow.Proofs.Workflow.Meeting

/-!
# Strands lower

In a workflow whose nodes are a closed strand, lowering finds nothing to blame. The place before a
strand dominates the exit, and the exit is passed on every path from that place, so it is where the
branches merge, however deep the strand lies. Each fork of the strand is opened by the place before
it, whose branches begin with heads that nothing else leads into, and each decision by its owner. So
the blocks can be counted along the ids: a stretch of nodes opens as many as its parts do.
-/

namespace BatchFlow

namespace Workflow

/-- How many of the first `n` nodes open a block of a sort. -/
def openedBelow (w : Workflow) (role : Role) (n : Nat) : Nat :=
  (List.range n).countP fun i => w.opens (.node i) = some role

/-- Lowering finds nothing to blame among the nodes from `first` up to, but without, `next`. They
open `k` blocks of a sort, `l` of which the place before them opens in their stead. -/
structure Settled (w : Workflow) (role : Role) (first next k l : Nat) : Prop where
  uncrossed : ∀ x, first ≤ x → x < next → ¬ w.CrossedAt x
  defaulted : ∀ x, first ≤ x → x < next → ¬ w.LacksDefault x
  count : w.openedBelow role first + k = l + w.openedBelow role next

variable {w : Workflow} {role : Role}

theorem openedBelow_succ (n : Nat) : w.openedBelow role (n + 1) =
    w.openedBelow role n + if w.opens (.node n) = some role then 1 else 0 := by
  simp [openedBelow, List.range_succ, List.countP_append, List.countP_cons]

namespace Settled

variable {first mid next j k l m : Nat}

theorem empty (first : Nat) : w.Settled role first first 0 0 :=
  ⟨fun _ _ _ => by omega, fun _ _ _ => by omega, Nat.add_comm _ _⟩

theorem single (role : Role) {x : Nat} (hcrossed : ¬ w.CrossedAt x) (hdefault : ¬ w.LacksDefault x) :
    w.Settled role x (x + 1) (if w.opens (.node x) = some role then 1 else 0) 0 := by
  have heq : ∀ y, x ≤ y → y < x + 1 → x = y := fun y hle hlt => by omega
  refine ⟨fun y hle hlt => heq y hle hlt ▸ hcrossed, fun y hle hlt => heq y hle hlt ▸ hdefault, ?_⟩
  rw [openedBelow_succ, Nat.zero_add]

theorem append (h : w.Settled role first mid j l) (h' : w.Settled role mid next k m) :
    w.Settled role first next (j + k) (l + m) := by
  refine ⟨fun x hle hlt => ?_, fun x hle hlt => ?_, ?_⟩
  · by_cases hx : x < mid
    · exact h.uncrossed x hle hx
    · exact h'.uncrossed x (Nat.le_of_not_lt hx) hlt
  · by_cases hx : x < mid
    · exact h.defaulted x hle hx
    · exact h'.defaulted x (Nat.le_of_not_lt hx) hlt
  · have := h.count
    have := h'.count
    omega

/-- Only the difference counts. -/
theorem congr {k' l' : Nat} (h : w.Settled role first next k l) (heq : k + l' = k' + l) :
    w.Settled role first next k' l' := by
  refine ⟨h.uncrossed, h.defaulted, ?_⟩
  have := h.count
  omega

end Settled

/-! ## What a place opens -/

namespace Sound

variable (hw : w.Sound) {a : Place}
include hw

theorem opens_eq_none {t : Nat} (hall : ∀ c v, w.dag.Enters a c v → c = none ∧ v = t) :
    w.opens a = none := by
  have hplain : w.choices a = [] := hw.choices_eq_nil fun c v hv => (hall c v hv).1
  have hnodup : (w.plain a).Nodup :=
    (w.next_eq a ▸ hw.next_nodup a).sublist (List.sublist_append_left _ _)
  have hone : w.plain a = List.replicate (w.plain a).length t :=
    List.eq_replicate_of_mem fun v hv => (hall none v (hw.mem_plain_iff.mp hv)).2
  have hlength : (w.plain a).length ≤ 1 := by
    rw [hone] at hnodup
    exact List.nodup_replicate.mp hnodup
  rw [opens_of_plain hplain, branches, if_pos hplain, List.length_map,
    if_neg (Nat.not_le_of_lt (Nat.lt_succ_of_le ((List.length_filter_le _ _).trans hlength)))]

theorem opens_eq_fork (ha : a.rank ≤ w.size) {u v : Nat} (hne : u ≠ v)
    (hu : Inflow.Only w.dag.Enters u [(a, none)]) (hv : Inflow.Only w.dag.Enters v [(a, none)]) :
    w.opens a = some .fork := by
  have hbranch : ∀ x y : Nat, x ≠ y → Inflow.Only w.dag.Enters x [(a, none)] →
      Inflow.Only w.dag.Enters y [(a, none)] →
      x ∈ (w.plain a).filter (· ≠ w.mergeOf a) := by
    intro x y hxy hx hy
    have hmem : ∀ z : Nat, Inflow.Only w.dag.Enters z [(a, none)] → z ∈ w.next a := fun z hz =>
      hw.mem_next_iff.mpr ⟨none, hz.enters_self⟩
    have hsole : ∀ b, w.Flow b (.node x) → b = a := by
      intro b hb
      obtain ⟨c, hc⟩ := hw.mem_next_iff.mp (mem_next_of_flow hb hx.enters_self.lt_size)
      exact (hx.eq_of_enters hc).1
    refine List.mem_filter.mpr ⟨hw.mem_plain_iff.mpr hx.enters_self, ?_⟩
    simpa using hw.ne_mergeOf_of_sole ha (hmem x hx) (hmem y hy) hxy hsole
  have hpair : [u, v] ⊆ (w.plain a).filter (· ≠ w.mergeOf a) :=
    List.cons_subset.mpr ⟨hbranch u v hne hu hv,
      List.cons_subset.mpr ⟨hbranch v u hne.symm hv hu, List.nil_subset _⟩⟩
  exact hw.opens_eq_fork_iff.mpr (List.subperm_of_subset (by simp [hne]) hpair).length_le

theorem opens_eq_decision {c : Condition} {v : Nat} (h : w.dag.Enters a (some c) v) :
    w.opens a = some .decision :=
  opens_of_choices (List.ne_nil_of_mem (hw.mem_choices_iff.mpr h))

end Sound
end Workflow

/-! ## Strands of a workflow -/

variable {w : Workflow} (hw : w.Sound) {role : Role}
include hw

/-- The exit of a closed strand is where the ways out of the place before the strand merge. -/
theorem Strand.not_crossedAt_exit {a : Place} {first exit k : Nat}
    (hs : Strand w.dag.Enters role a first exit k)
    (hc : Inflow.Closed w.dag.Enters a first exit) : ¬ w.CrossedAt exit := by
  have hle := hs.first_le
  have hane : a ≠ .node exit := Place.node_ne_of_rank_le (Nat.le_trans hc.before hle)
  rintro ⟨hlt, -, hcrossed⟩
  refine hcrossed a hane ?_ ?_
  -- A path from the source comes into the strand, and it does so from `a`.
  · intro p hp
    let outside (b : Place) : Prop := ¬ ∃ v, b = .node v ∧ first ≤ v ∧ v ≤ exit
    have hsource : outside .source := fun ⟨_, heq, _⟩ => by cases heq
    obtain ⟨b, z, hb, -, e, hout, hin⟩ :=
      hp.exists_crossing hsource (not_not_intro ⟨exit, rfl, hle, Nat.le_refl _⟩)
    obtain ⟨v, rfl, hfirst, hexit⟩ := not_not.mp hin
    obtain ⟨c, henters⟩ := hw.mem_next_iff.mp
      (Workflow.mem_next_of_flow e (Nat.lt_of_le_of_lt hexit hlt))
    rcases hs.entered b c v hfirst hexit henters with ⟨rfl, -⟩ | ⟨u, rfl, hu, huv⟩
    · exact hb
    · exact absurd ⟨u, rfl, hu, Nat.le_trans (Nat.le_of_lt huv) hexit⟩ hout
  -- A path to the sink leaves the place and the nodes before the exit, and it does so to the exit.
  · intro p hp
    let inside (b : Place) : Prop := b = a ∨ ∃ u, b = .node u ∧ first ≤ u ∧ u < exit
    have hsink : ¬ inside w.sink := by
      rintro (heq | ⟨u, heq, -, hu⟩)
      · have hrank := Nat.le_trans hc.before hle
        exact Workflow.ne_sink (Nat.le_of_lt (Nat.lt_of_le_of_lt hrank hlt)) heq.symm
      · exact absurd (Place.node.inj heq).symm (Nat.ne_of_lt (Nat.lt_trans hu hlt))
    have ha : inside a := .inl rfl
    obtain ⟨b, z, -, hz, e, hin, hout⟩ := hp.exists_crossing ha hsink
    have hnext : ∀ v ∈ w.next b, first ≤ v ∧ v ≤ exit := by
      intro v hv
      obtain ⟨c, henters⟩ := hw.mem_next_iff.mp hv
      rcases hin with rfl | ⟨u, rfl, hu, hlt⟩
      · exact hc.entry c v henters
      · have huv : u < v := hw.dag.enters_forward _ c v henters
        exact ⟨by omega, hc.inner u hu hlt c v henters⟩
    have hleads : ∃ v, v ∈ w.next b := by
      obtain ⟨⟨v, -, -, hv⟩, honward⟩ := hs.onward
      rcases hin with rfl | ⟨u, rfl, hu, hlt⟩
      · exact ⟨v, hw.mem_next_iff.mpr ⟨none, hv⟩⟩
      · obtain ⟨c, v, -, -, hv⟩ := honward u hu hlt
        exact ⟨v, hw.mem_next_iff.mpr ⟨c, hv⟩⟩
    cases e with
    | @edge v hv =>
      obtain ⟨hfirst, hexit⟩ := hnext v hv
      rcases Nat.lt_or_eq_of_le hexit with hv' | rfl
      · exact absurd (.inr ⟨v, rfl, hfirst, hv'⟩) hout
      · exact hz
    | leaf _ hnil =>
      obtain ⟨v, hv⟩ := hleads
      exact absurd (hnil ▸ hv) List.not_mem_nil

/-- The heads of two strands side by side are branches of the place before them. -/
theorem Strands.opens_eq_fork {a : Place} {first next k : Nat}
    {heads : List (Nat × Option Condition)} {exits : List Nat}
    (hs : Strands w.dag.Enters role a first next heads exits k) (ha : a.rank ≤ w.size)
    (htwo : 2 ≤ heads.length) (hplain : ∀ h ∈ heads, h.2 = Option.none) :
    w.opens a = some .fork := by
  have hsorted := hs.heads_sorted
  have hhead := hs.only_head
  match heads, htwo with
  | x :: y :: _, _ =>
    obtain ⟨hx, hy, -⟩ := List.forall_mem_cons.mp hhead |>.imp_right List.forall_mem_cons.mp
    have hxy : x.1 < y.1 := List.rel_of_pairwise_cons hsorted List.mem_cons_self
    rw [hplain x List.mem_cons_self] at hx
    rw [hplain y (List.mem_cons_of_mem _ List.mem_cons_self)] at hy
    exact hw.opens_eq_fork ha (Nat.ne_of_lt hxy) hx hy

mutual

theorem Strand.settled {a : Place} {first exit k : Nat} :
    Strand w.dag.Enters role a first exit k → Inflow.Closed w.dag.Enters a first exit →
      exit < w.size →
      w.Settled role first exit k (if w.opens a = some role then 1 else 0)
  | @Strand.step _ _ _ v honly => fun hc _ => by
    have hstrand : Strand w.dag.Enters role a v v 0 := .step honly
    have hopens : w.opens a = none := hw.opens_eq_none (t := v) fun c u hu => by
      obtain ⟨hfirst, hexit⟩ := hc.entry c u hu
      exact ⟨hc.plain hstrand hu, Nat.le_antisymm hexit hfirst⟩
    rw [hopens]
    exact .empty v
  | @Strand.seq _ _ _ _ mid _ j k hs ht => fun hc hlt => by
    have hleft := hc.left hs ht
    have hright := hc.right hw.dag.enters_forward hs ht
    have hmid := Workflow.Settled.single role (Strand.not_crossedAt_exit hw hs hleft)
      (hw.not_lacksDefault_of_plain fun c v => hright.plain ht)
    have hbefore := Strand.settled hs hleft (Nat.lt_of_le_of_lt (Nat.le_of_lt ht.first_le) hlt)
    have hall := (hbefore.append hmid).append (Strand.settled ht hright hlt)
    exact hall.congr (by omega)
  | @Strand.fork _ _ _ _ join k heads exits hs htwo hplain honly => fun hc hlt => by
    have hjoined := Inflow.Joined.of_inner hc.before hc.inner hw.dag.enters_forward hs honly
    have hrank : a.rank ≤ w.size :=
      Nat.le_trans (Nat.le_trans hc.before hs.bounds.1) (Nat.le_of_lt hlt)
    have hopens := hs.opens_eq_fork hw hrank htwo hplain
    have harms := Strands.settled hs hjoined hlt
    rw [hopens]
    refine harms.congr ?_
    simp only [Option.some.injEq, @eq_comm _ role, Nat.add_zero]
    omega
  | @Strand.decision _ _ _ owner join k heads exits hhead hs hdefault honly => fun hc hlt => by
    have hstrand : Strand w.dag.Enters role a owner join _ := .decision hhead hs hdefault honly
    have hjoined : Inflow.Joined w.dag.Enters (.node owner) (owner + 1) join join exits :=
      .of_inner (Nat.le_refl _) (fun u hu => hc.inner u (Nat.le_of_succ_le hu))
        hw.dag.enters_forward hs honly
    obtain ⟨⟨h, c⟩, hmem, rfl⟩ := hdefault
    have henters : w.dag.Enters (.node owner) (some .otherwise) h :=
      (hs.only_head _ hmem).enters_self
    have hopens : w.opens a = none := hw.opens_eq_none fun c v hv =>
      ⟨hc.plain hstrand hv, hc.eq_owner hs honly hv⟩
    have howner := Workflow.Settled.single role (hw.not_crossedAt_of_only hhead)
      (hw.not_lacksDefault_of_default henters)
    have harms := Strands.settled hs hjoined hlt
    rw [hw.opens_eq_decision henters] at howner
    rw [hopens]
    refine (howner.append harms).congr ?_
    simp only [Option.some.injEq, @eq_comm _ role, reduceCtorEq, if_false]

theorem Strands.settled {a : Place} {first next join k : Nat}
    {heads : List (Nat × Option Condition)} {exits : List Nat} :
    Strands w.dag.Enters role a first next heads exits k →
      Inflow.Joined w.dag.Enters a first next join exits → next < w.size →
      w.Settled role first next k 0
  | .none _ _ => fun _ _ => .empty _
  | @Strands.more _ _ _ head exit next j k c heads exits hhead hs hmore => fun hj hlt => by
    have hclosed := hj.closed hs hmore hw.dag.enters_forward
    have hexit : exit < w.size := Nat.lt_of_lt_of_le hmore.bounds.1 (Nat.le_of_lt hlt)
    have hjoin : ∀ c v, w.dag.Enters (.node exit) c v → c = none ∧ v = join :=
      hj.exit exit List.mem_cons_self
    have hfirst := Workflow.Settled.single role (hw.not_crossedAt_of_only hhead)
      (hw.not_lacksDefault_of_plain fun c v => hclosed.plain hs)
    have hlast := Workflow.Settled.single role (Strand.not_crossedAt_exit hw hs hclosed)
      (hw.not_lacksDefault_of_plain fun c v hv => (hjoin c v hv).1)
    rw [hw.opens_eq_none hjoin] at hlast
    have harm := (hfirst.append (Strand.settled hs hclosed hexit)).append hlast
    refine (harm.append (Strands.settled hmore (hj.rest hs) hlt)).congr ?_
    simp only [reduceCtorEq, if_false]
    omega

end

end BatchFlow

import BatchFlow.Proofs.Workflow.Order
import Mathlib.Logic.Relation

/-!
# One node and one count at a time

The order of the nodes is found within a bound, in steps that place a node and release all its
children, and a child without a count is passed over. Here the placing goes on for as long as a node
is ready, it releases one child at a time, and it slips where a child has no count or waits for
nothing. For a built workflow it ends, and it does not slip on the way: a child that is to be
released waits for the node that was placed last, because the edges of a built workflow are noted at
both ends.
-/

namespace BatchFlow
namespace Workflow

/-- Why a child cannot be released. -/
inductive Slip where
  /-- There is no count for it. -/
  | outOfRange (child : NodeId)
  /-- Its count would fall below zero. -/
  | belowZero (child : NodeId)

/-- A placing, and the children of the node placed last that are still to be released. -/
structure Stage where
  placement : Placement
  pending : List NodeId := []

namespace Placement

/-- The placing with one more node placed, and these left to be placed next. -/
def take (p : Placement) (id : NodeId) (rest : List NodeId) : Placement :=
  { p with ready := rest, placed := p.placed ++ [id] }

end Placement

namespace Stage

/-- Releases the next child, or takes the next node. Without either, the placing is over. -/
def step (children : NodeId → List NodeId) (s : Stage) : Except Slip (Option Stage) :=
  match s.pending with
  | child :: rest =>
      match s.placement.waiting[child]? with
      | none => .error (.outOfRange child)
      | some count =>
          if count < 1 then .error (.belowZero child)
          else .ok (some { placement := s.placement.release child, pending := rest })
  | [] =>
      match s.placement.ready with
      | [] => .ok none
      | id :: rest => .ok (some { placement := s.placement.take id rest, pending := children id })

/-- Some steps, perhaps none, lead from one stage to another. -/
def Reaches (children : NodeId → List NodeId) : Stage → Stage → Prop :=
  Relation.ReflTransGen fun s s' => s.step children = .ok (some s')

variable {children : NodeId → List NodeId} {start s s' final : Stage}

/-- A placing that comes to its end does not slip on the way. -/
theorem Reaches.not_slip (hs : Reaches children start s) (hfinal : Reaches children start final)
    (hover : final.step children = .ok none) (slip : Slip) : s.step children ≠ .error slip := by
  intro hslip
  have hunique : Relator.RightUnique fun s s' : Stage => s.step children = .ok (some s') := by
    intro a b c hb hc
    exact Option.some.inj (Except.ok.inj (hb.symm.trans hc))
  -- There is one way to go, so one of the two stages lies behind the other.
  rcases Relation.ReflTransGen.total_of_right_unique hunique hs hfinal with h | h
  · rcases Relation.ReflTransGen.cases_head h with heq | ⟨t, ht, -⟩
    · rw [heq, hover] at hslip
      cases hslip
    · rw [ht] at hslip
      cases hslip
  · rcases Relation.ReflTransGen.cases_head h with heq | ⟨t, ht, -⟩
    · rw [← heq, hover] at hslip
      cases hslip
    · rw [hover] at ht
      cases ht

end Stage

namespace Placement

theorem waiting_foldl_release {told : List Nat} {c : Nat} (h : c ∉ told) (p : Placement) :
    (told.foldl release p).waiting[c]? = p.waiting[c]? := by
  induction told generalizing p with
  | nil => rfl
  | cons x rest ih =>
    rw [List.mem_cons, not_or] at h
    rw [List.foldl_cons, ih h.2, getElem?_waiting_release, if_neg h.1]

variable {w : Workflow}

/-- When all nodes are placed, none is ready. -/
theorem At.ready_eq_nil {p : Placement} (h : At w w.size p) : p.ready = [] := by
  rw [List.eq_nil_iff_forall_not_mem]
  intro i hi
  obtain ⟨n, hn, hle, -⟩ := (h.mem_ready i).mp hi
  exact absurd (Dag.lt_size hn) (Nat.not_lt_of_le hle)

variable (hw : w.Sound)
include hw

/-- A child of the node placed last that was not released yet waits for that node. -/
theorem At.exists_count {k : Nat} {p : Placement} (h : At w k p) {told cs : List Nat} {c : Nat}
    (hchildren : w.childrenOf k = told ++ c :: cs) (rest : List NodeId) :
    ∃ count, (told.foldl release (p.take k rest)).waiting[c]? = some count ∧ 0 < count := by
  have hc : c ∈ w.childrenOf k := hchildren ▸ List.mem_append_right told List.mem_cons_self
  have hnew : c ∉ told := by
    intro hmem
    have hnodup := hw.childrenOf_nodup k
    rw [hchildren, List.nodup_append] at hnodup
    exact hnodup.2.2 c hmem c List.mem_cons_self rfl
  obtain ⟨n, hn, hk⟩ := hw.mem_childrenOf_iff.mp hc
  refine ⟨_, (waiting_foldl_release hnew _).trans (h.waiting c n hn), ?_⟩
  have hpos : 0 < n.parents.countP (k ≤ ·) :=
    List.countP_pos_iff.mpr ⟨k, hk, decide_eq_true (Nat.le_refl k)⟩
  omega

/-- All children of the node placed last are released in turn. -/
theorem At.reaches_released {k : Nat} {p : Placement} (h : At w k p) (rest : List NodeId)
    {told cs : List Nat} (hchildren : w.childrenOf k = told ++ cs) :
    Stage.Reaches w.childrenOf ⟨told.foldl release (p.take k rest), cs⟩
      ⟨(w.childrenOf k).foldl release (p.take k rest), []⟩ := by
  -- A child moves from those that are still to be released to those that were told.
  induction cs generalizing told with
  | nil =>
    rw [hchildren, List.append_nil]
    exact .refl
  | cons c cs ih =>
    obtain ⟨count, hcount, hpos⟩ := h.exists_count hw hchildren rest
    have hmoved : w.childrenOf k = (told ++ [c]) ++ cs := by
      rw [hchildren, List.append_assoc, List.singleton_append]
    have hrest := ih hmoved
    rw [List.foldl_append] at hrest
    refine .head ?_ hrest
    have hnot : ¬ count < 1 := by omega
    show Stage.step _ _ = _
    simp only [Stage.step, hcount, hnot, if_false]
    rfl

/-- From the placing of the first nodes on, the placing goes through as the bounded one does. -/
theorem At.reaches_run {bound k : Nat} {p : Placement} (h : At w k p) (hb : k + bound = w.size) :
    Stage.Reaches w.childrenOf ⟨p, []⟩ ⟨Placement.run w.childrenOf bound p, []⟩ := by
  induction bound generalizing k p with
  | zero => exact .refl
  | succ bound ih =>
    obtain ⟨rest, hrest, -, -⟩ := h.exists_rest hw (by omega)
    obtain ⟨p', hp', h'⟩ := h.step hw (by omega)
    have hplaced : p.step w.childrenOf =
        some ((w.childrenOf k).foldl release (p.take k rest)) := by
      unfold Placement.step
      rw [hrest]
      rfl
    rw [hp', Option.some_inj] at hplaced
    have htake : Stage.step w.childrenOf ⟨p, []⟩ =
        .ok (some ⟨p.take k rest, w.childrenOf k⟩) := by
      simp only [Stage.step, hrest]
    have hnext : Placement.run w.childrenOf (bound + 1) p =
        Placement.run w.childrenOf bound p' := by
      rw [Placement.run, hp']
    have hreleased := h.reaches_released hw rest (List.nil_append (w.childrenOf k)).symm
    rw [← hplaced] at hreleased
    rw [hnext]
    exact .head htake (hreleased.trans (ih h' (by omega)))

end Placement

/-- The nodes of a built workflow are placed in arena order. Each has a count. The placing without a
bound comes to an end, which is that of the bounded one, and at no stage on the way is there a child
that has no count or waits for nothing. -/
theorem Built.placed_in_arena_order {w : Workflow} (hb : w.Built) :
    w.unplaced.waiting.length = w.size ∧
    (∃ final : Stage, Stage.Reaches w.childrenOf ⟨w.unplaced, []⟩ final ∧
      final.step w.childrenOf = .ok none ∧ final.placement.placed = List.range w.size ∧
      final.placement = Placement.run w.childrenOf w.size w.unplaced) ∧
    (∀ s : Stage, Stage.Reaches w.childrenOf ⟨w.unplaced, []⟩ s →
      ∀ slip, s.step w.childrenOf ≠ .error slip) ∧
    w.topologicalOrder = .ok (List.range w.size) := by
  have hw := hb.sound
  have hall : 0 + w.size = w.size := Nat.zero_add w.size
  have hat := Placement.At.start.run hw hall
  have hreaches := Placement.At.start.reaches_run hw hall
  have hover : Stage.step w.childrenOf ⟨Placement.run w.childrenOf w.size w.unplaced, []⟩ =
      .ok none := by
    simp only [Stage.step, hat.ready_eq_nil]
  refine ⟨Placement.At.start.length, ⟨_, hreaches, hover, hat.placed, rfl⟩, fun s hs => ?_,
    hw.topologicalOrder_eq⟩
  exact hs.not_slip hreaches hover

/-- A workflow with a shortcut and with conditions has its nodes placed as they stand. -/
theorem nightly_placed_in_arena_order :
    (∃ final : Stage, Stage.Reaches nightly.childrenOf ⟨nightly.unplaced, []⟩ final ∧
      final.step nightly.childrenOf = .ok none ∧ final.placement.placed = [0, 1, 2, 3, 4, 5]) ∧
    (∀ s : Stage, Stage.Reaches nightly.childrenOf ⟨nightly.unplaced, []⟩ s →
      ∀ slip, s.step nightly.childrenOf ≠ .error slip) ∧
    nightly.topologicalOrder = .ok [0, 1, 2, 3, 4, 5] := by
  have hsize : List.range nightly.size = [0, 1, 2, 3, 4, 5] := rfl
  obtain ⟨-, hfinal, hslip, horder⟩ := nightly_built.placed_in_arena_order
  obtain ⟨final, hreaches, hover, hplaced, -⟩ := hfinal
  rw [hsize] at hplaced horder
  exact ⟨⟨final, hreaches, hover, hplaced⟩, hslip, horder⟩

end Workflow
end BatchFlow

import BatchFlow.Proofs.Lowering.Drawn

/-!
# How many edges vertices have

What a role admits is an upper bound. In the graph of an outline the bound is met: every fork has
two branches or more, every decision has one default, and no vertex lacks the edges that it needs.
-/

namespace BatchFlow

/-- The role has the parents, and the children under these conditions, that it needs. -/
def Role.Complete (role : Role) (parents : Nat) (conditions : List (Option Condition)) : Prop :=
  match role with
  | .start => parents = 0 ∧ conditions.length = 1
  | .finish => parents = 1 ∧ conditions = []
  | .kill => parents = 0 ∧ conditions = []
  | .decision => parents = 1 ∧ conditions.countP (·.any Condition.isDefault) = 1
  | .fork => parents = 1 ∧ 2 ≤ conditions.length
  | .join => 2 ≤ parents ∧ conditions.length = 1
  | .decisionJoin => 1 ≤ parents ∧ conditions.length = 1
  | .task _ => parents = 1 ∧ conditions.length = 1

/-- The block has the arms that it needs. -/
def FullBlock (b : Role × List (Option Condition)) : Prop :=
  b.1 = .fork ∧ 2 ≤ b.2.length ∨
    b.1 = .decision ∧ b.2.countP (·.any Condition.isDefault) = 1

theorem FullBlock.opening {b : Role × List (Option Condition)} (h : FullBlock b) :
    b.1.Complete 1 b.2 := by
  rcases h with ⟨hrole, hlen⟩ | ⟨hrole, hone⟩
  · rw [hrole]
    exact ⟨rfl, hlen⟩
  · rw [hrole]
    exact ⟨rfl, hone⟩

theorem FullBlock.length_pos {b : Role × List (Option Condition)} (h : FullBlock b) :
    0 < b.2.length := by
  rcases h with ⟨-, hlen⟩ | ⟨-, hone⟩
  · omega
  · have hle : b.2.countP (·.any Condition.isDefault) ≤ b.2.length := List.countP_le_length
    omega

theorem FullBlock.closing {b : Role × List (Option Condition)} (h : FullBlock b) :
    b.1.closing.Complete b.2.length [none] := by
  have hpos := h.length_pos
  rcases h with ⟨hrole, hlen⟩ | ⟨hrole, hone⟩
  · rw [hrole]
    exact ⟨hlen, rfl⟩
  · rw [hrole]
    exact ⟨hpos, rfl⟩

/-! ## Rows that trace a workflow are full -/

theorem Row.blocks_append : ∀ r s : Row, (r.append s).blocks = r.blocks ++ s.blocks
  | .done, s => rfl
  | .task _ next, s => Row.blocks_append next s
  | .fork arms next, s
  | .decision arms next, s => by
    simp only [Row.append, Row.blocks, Row.blocks_append next s, List.cons_append,
      List.append_assoc]

section

variable {w : Workflow}

mutual

theorem Row.Traces.full (hw : w.Sound) {id stop : NodeId} {r : Row} :
    Row.Traces w id stop r → ∀ b ∈ r.blocks, FullBlock b
  | .done _ => fun b hb => by cases hb
  | .task _ _ hbridges ht => fun b hb => by
    rw [Row.blocks, Row.blocks_append, List.mem_append] at hb
    rcases hb with hb | hb
    · exact Row.Bridges.full hw hbridges b hb
    · exact Row.Traces.full hw ht b hb

theorem Row.Bridges.full (hw : w.Sound) {a : Place} {r : Row} :
    Row.Bridges w a r → ∀ b ∈ r.blocks, FullBlock b
  | .skip _ _ => fun b hb => by cases hb
  | .single _ _ ht => Row.Traces.full hw ht
  | .fork _ htwo ht => fun b hb => by
    rw [Row.blocks, Row.blocks, List.append_nil] at hb
    rcases List.mem_cons.mp hb with rfl | hb
    · refine .inl ⟨rfl, ?_⟩
      rw [ht.conditions_eq, List.length_map]
      exact htwo
    · exact Arms.Traces.full hw ht b hb
  | .decision (a := a) hdefault ht => fun b hb => by
    rw [Row.blocks, Row.blocks, List.append_nil] at hb
    rcases List.mem_cons.mp hb with rfl | hb
    · obtain ⟨c, hc, hdef⟩ := hdefault
      have hchoices : w.choices a ≠ [] := List.ne_nil_of_mem hc
      have hpos : 0 < (w.choices a).countP (·.condition.isDefault) :=
        List.countP_pos_iff.mpr ⟨c, hc, hdef⟩
      have hone := hw.one_default a
      refine .inr ⟨rfl, ?_⟩
      rw [ht.conditions_eq, Workflow.branches, if_neg hchoices, List.map_map, List.countP_map]
      have hcount : (w.choices a).countP (·.condition.isDefault) = 1 := by omega
      simpa [Function.comp_def] using hcount
    · exact Arms.Traces.full hw ht b hb

theorem Arms.Traces.full (hw : w.Sound) {merge : NodeId}
    {heads : List (NodeId × Option Condition)} {arms : Arms} :
    Arms.Traces w merge heads arms → ∀ b ∈ arms.blocks, FullBlock b
  | .none _ => fun b hb => by cases hb
  | .arm ht hmore => fun b hb => by
    rcases List.mem_append.mp hb with hb | hb
    · exact Row.Traces.full hw ht b hb
    · exact Arms.Traces.full hw hmore b hb

end

theorem Row.Outlines.full (hw : w.Sound) {r : Row} (ho : Row.Outlines w r) :
    ∀ b ∈ r.blocks, FullBlock b := by
  cases ho with
  | mk hb ht _ =>
    intro b hmem
    rw [Row.blocks_append, List.mem_append] at hmem
    exact hmem.elim (hb.full hw b) (ht.full hw b)

end

/-! ## Every site is complete -/

theorem Around.complete {blocks : List (Role × List (Option Condition))} {v : Nat} {role : Role}
    {out into : List Wire} (h : Around blocks v role out into)
    (hfull : ∀ b ∈ blocks, FullBlock b) :
    role.Complete into.length (out.map (·.port.condition)) := by
  cases h with
  | task => exact ⟨rfl, rfl⟩
  | opening hmem hcond _ => exact hcond ▸ (hfull _ hmem).opening
  | closing hmem hlen => exact hlen ▸ (hfull _ hmem).closing

theorem Row.complete_allSites {r : Row} (hfull : ∀ b ∈ r.blocks, FullBlock b) {v : Nat}
    {role : Role} (hv : (v, role) ∈ r.allSites) :
    role.Complete (wiresInto r.allWires v).length
      ((wiresFrom r.allWires v).map (·.port.condition)) := by
  rcases mem_allSites.mp hv with ⟨rfl, rfl⟩ | ⟨rfl, rfl⟩ | hv | ⟨rfl, rfl⟩
  · obtain ⟨⟨target, hone⟩, hinto⟩ := r.wires_start
    rw [hone, hinto]
    exact ⟨rfl, rfl⟩
  · rw [r.wires_finish.1, r.wires_finish.2]
    exact ⟨rfl, rfl⟩
  · exact Around.complete (r.sits Nat.two_pos (.inl Nat.one_lt_two) v role hv) hfull
  · rw [r.avoid_kill.wiresFrom, r.avoid_kill.wiresInto]
    exact ⟨rfl, rfl⟩

/-! ## No vertex is cut off -/

theorem Around.ne_nil {blocks : List (Role × List (Option Condition))} {v : Nat} {role : Role}
    {out into : List Wire} (h : Around blocks v role out into)
    (hfull : ∀ b ∈ blocks, FullBlock b) : out ≠ [] ∧ into ≠ [] := by
  cases h with
  | task => exact ⟨List.cons_ne_nil _ _, List.cons_ne_nil _ _⟩
  | opening hmem hcond _ =>
    have hpos := (hfull _ hmem).length_pos
    rw [← hcond, List.length_map] at hpos
    exact ⟨List.ne_nil_of_length_pos hpos, List.cons_ne_nil _ _⟩
  | closing hmem hlen =>
    have hpos := (hfull _ hmem).length_pos
    rw [← hlen] at hpos
    exact ⟨List.cons_ne_nil _ _, List.ne_nil_of_length_pos hpos⟩

/-- Of all vertices but the kill vertex, only the start has no wire into it, and only the end has
none out of it. -/
theorem Row.exists_wires {r : Row} (hfull : ∀ b ∈ r.blocks, FullBlock b) {v : Nat}
    (hv : v < 2 + r.size) :
    (v = 0 ∨ ∃ e ∈ r.allWires, e.target = v) ∧ (v = 1 ∨ ∃ e ∈ r.allWires, e.port.source = v) := by
  have hinto : wiresInto r.allWires v ≠ [] → ∃ e ∈ r.allWires, e.target = v := by
    intro hne
    obtain ⟨e, he⟩ := List.exists_mem_of_ne_nil _ hne
    obtain ⟨hmem, htarget⟩ := List.mem_filter.mp he
    exact ⟨e, hmem, of_decide_eq_true htarget⟩
  have hfrom : wiresFrom r.allWires v ≠ [] → ∃ e ∈ r.allWires, e.port.source = v := by
    intro hne
    obtain ⟨e, he⟩ := List.exists_mem_of_ne_nil _ hne
    obtain ⟨hmem, hsource⟩ := List.mem_filter.mp he
    exact ⟨e, hmem, of_decide_eq_true hsource⟩
  have hlt : v < (r.stations []).length := by
    rw [r.length_stations]
    omega
  have hsite : (v, (r.stations [])[v].2) ∈ r.allSites := by
    rw [← r.sitesOf_stations []]
    exact mem_sitesOf.mpr ⟨_, List.getElem?_eq_getElem hlt⟩
  rcases mem_allSites.mp hsite with ⟨rfl, -⟩ | ⟨rfl, -⟩ | hsite | ⟨rfl, -⟩
  · obtain ⟨⟨target, hone⟩, -⟩ := r.wires_start
    exact ⟨.inl rfl, .inr (hfrom (by rw [hone]; exact List.cons_ne_nil _ _))⟩
  · have hone := r.wires_finish.2
    exact ⟨.inr (hinto (by rw [hone]; exact List.cons_ne_nil _ _)), .inl rfl⟩
  · have hsits : Sits r.blocks r.allWires v (r.stations [])[v].2 :=
      r.sits Nat.two_pos (.inl Nat.one_lt_two) v _ hsite
    obtain ⟨hout, hin⟩ := Around.ne_nil hsits hfull
    exact ⟨.inr (hinto hin), .inr (hfrom hout)⟩
  · exact absurd hv (Nat.lt_irrefl _)

end BatchFlow

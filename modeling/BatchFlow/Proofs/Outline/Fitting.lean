import BatchFlow.Proofs.Outline.Wires

/-!
# Wires fit their sites

Seen from one vertex of a row, most wires of the row do not matter: only those of the block or task
that the vertex belongs to start or end there. So each vertex has the edges that its role admits,
and the edges out of it are numbered in the order of the wires. What a row needs for this is that
its blocks have arms, that the arms of forks are plain, and that those of decisions have conditions,
at most one of which is the default.
-/

namespace BatchFlow

mutual

/-- The arms of each block suit the block. -/
def Row.Proper : Row → Prop
  | .done => True
  | .task _ next => next.Proper
  | .fork arms next =>
      (arms.conditions ≠ [] ∧ ∀ c ∈ arms.conditions, c = none) ∧ arms.Proper ∧ next.Proper
  | .decision arms next =>
      (arms.conditions ≠ [] ∧ (∀ c ∈ arms.conditions, c.isSome = true) ∧
        arms.conditions.countP (·.any Condition.isDefault) ≤ 1) ∧ arms.Proper ∧ next.Proper

def Arms.Proper : Arms → Prop
  | .none => True
  | .arm _ row more => row.Proper ∧ more.Proper

end

mutual

/-- The blocks of a row: what opens each, and the conditions of its arms. -/
def Row.blocks : Row → List (Role × List (Option Condition))
  | .done => []
  | .task _ next => next.blocks
  | .fork arms next => (.fork, arms.conditions) :: (arms.blocks ++ next.blocks)
  | .decision arms next => (.decision, arms.conditions) :: (arms.blocks ++ next.blocks)

def Arms.blocks : Arms → List (Role × List (Option Condition))
  | .none => []
  | .arm _ row more => row.blocks ++ more.blocks

end

/-- What closes a block, by what opens it. -/
def Role.closing : Role → Role
  | .fork => .join
  | _ => .decisionJoin

/-- The wires out of a vertex and those into it, given the blocks: a task has one of each, an
opening has one into it and one out for each arm, a closing has one into it for each arm and one
out. -/
inductive Around (blocks : List (Role × List (Option Condition))) (v : Nat) :
    Role → List Wire → List Wire → Prop
  | task {t : Task} {q : Port} {target : Nat} :
      Around blocks v (.task t) [⟨⟨v, 0, none⟩, target⟩] [⟨q, v⟩]
  | opening {role : Role} {conditions : List (Option Condition)} {q : Port} {out : List Wire} :
      (role, conditions) ∈ blocks → out.map (·.port.condition) = conditions →
      out.map (·.port.index) = List.range conditions.length →
      Around blocks v role out [⟨q, v⟩]
  | closing {role : Role} {conditions : List (Option Condition)} {target : Nat}
      {into : List Wire} : (role, conditions) ∈ blocks → into.length = conditions.length →
      Around blocks v role.closing [⟨⟨v, 0, none⟩, target⟩] into

/-- A site among wires, with what is around it. -/
def Sits (blocks : List (Role × List (Option Condition))) (ws : List Wire) (v : Nat)
    (role : Role) : Prop :=
  Around blocks v role (wiresFrom ws v) (wiresInto ws v)

/-- The wires of a row and the one that leaves it. -/
def Row.wiresTo (r : Row) (q : Port) (p target : Nat) : List Wire :=
  r.wires q p ++ [⟨r.exit q p, target⟩]

/-- A row that begins with a block: what opens the block, its arms, and the row behind it. -/
inductive Row.IsBlock : Row → Role → Arms → Row → Prop
  | fork (arms : Arms) (next : Row) : IsBlock (.fork arms next) .fork arms next
  | decision (arms : Arms) (next : Row) : IsBlock (.decision arms next) .decision arms next

/-- A site has room for its wires, and those that leave it are numbered. -/
def Suits (ws : List Wire) (v : Nat) (role : Role) : Prop :=
  role.Admits (wiresInto ws v).length ((wiresFrom ws v).map (·.port.condition)) ∧
    (wiresFrom ws v).map (·.port.index) = List.range (wiresFrom ws v).length

/-! ## Blocks

Forks and decisions take up ids in the same way, and their wires are the same. -/

namespace Row.IsBlock

variable {r next : Row} {role : Role} {arms : Arms} (h : r.IsBlock role arms next)
include h

theorem size_eq : r.size = arms.size + next.size + 2 := by cases h <;> rfl

theorem sites_eq (p : Nat) : r.sites p = (p, role) :: (p + 1, role.closing) ::
    (arms.sites (p + 2) ++ next.sites (p + 2 + arms.size)) := by
  cases h <;> rfl

theorem blocks_eq : r.blocks = (role, arms.conditions) :: (arms.blocks ++ next.blocks) := by
  cases h <;> rfl

theorem wiresTo_eq (q : Port) (p t : Nat) : r.wiresTo q p t = ⟨q, p⟩ ::
    (arms.wires p 0 (p + 2) ++ next.wiresTo ⟨p + 1, 0, none⟩ (p + 2 + arms.size) t) := by
  cases h <;> simp [wiresTo, wires, exit]

/-- Tasks stand in the arms of a block or behind it. -/
theorem task_mem_sites_iff {p v : Nat} {t : Task} : (v, .task t) ∈ r.sites p ↔
    (v, .task t) ∈ arms.sites (p + 2) ∨ (v, .task t) ∈ next.sites (p + 2 + arms.size) := by
  cases h <;> simp [sites]

end Row.IsBlock

/-! ## Wires that do not matter to a vertex -/

section Elsewhere

variable {ws ws' : List Wire} {v : Nat} {role : Role}

theorem wiresFrom_eq_nil (h : ∀ e ∈ ws, e.port.source ≠ v) : wiresFrom ws v = [] := by
  refine List.filter_eq_nil_iff.mpr fun e he => ?_
  simpa using h e he

theorem wiresInto_eq_nil (h : ∀ e ∈ ws, e.target ≠ v) : wiresInto ws v = [] := by
  refine List.filter_eq_nil_iff.mpr fun e he => ?_
  simpa using h e he

/-- The wires neither start nor end at a vertex. -/
def Avoid (ws : List Wire) (v : Nat) : Prop := ∀ e ∈ ws, e.port.source ≠ v ∧ e.target ≠ v

theorem Avoid.wiresFrom (h : Avoid ws v) : wiresFrom ws v = [] :=
  wiresFrom_eq_nil fun e he => (h e he).1

theorem Avoid.wiresInto (h : Avoid ws v) : wiresInto ws v = [] :=
  wiresInto_eq_nil fun e he => (h e he).2

variable {blocks : List (Role × List (Option Condition))}

theorem Sits.append_left (h : Sits blocks ws v role) (hv : Avoid ws' v) :
    Sits blocks (ws' ++ ws) v role := by
  unfold Sits
  rw [wiresFrom_append, wiresInto_append, hv.wiresFrom, hv.wiresInto]
  exact h

theorem Sits.append_right (h : Sits blocks ws v role) (hv : Avoid ws' v) :
    Sits blocks (ws ++ ws') v role := by
  unfold Sits
  rw [wiresFrom_append, wiresInto_append, hv.wiresFrom, hv.wiresInto, List.append_nil,
    List.append_nil]
  exact h

theorem Around.mono {blocks' : List (Role × List (Option Condition))} {out into : List Wire}
    (h : Around blocks v role out into) (hsub : blocks ⊆ blocks') :
    Around blocks' v role out into := by
  cases h with
  | task => exact .task
  | opening hmem hcond hnum => exact .opening (hsub hmem) hcond hnum
  | closing hmem hlen => exact .closing (hsub hmem) hlen

theorem Sits.mono {blocks' : List (Role × List (Option Condition))} (h : Sits blocks ws v role)
    (hsub : blocks ⊆ blocks') : Sits blocks' ws v role := Around.mono h hsub

end Elsewhere

/-! ## The ends of a row -/

theorem Row.mem_wiresTo {r : Row} {q : Port} {p t : Nat} (e : Wire) (h : e ∈ r.wiresTo q p t) :
    (e.target = t ∨ p ≤ e.target ∧ e.target < p + r.size) ∧
      (e.port.source = q.source ∨ p ≤ e.port.source ∧ e.port.source < p + r.size) := by
  rcases List.mem_append.mp h with h | h
  · obtain ⟨ht, hs⟩ := r.mem_wires q p e h
    refine ⟨.inr ht, hs.imp_left fun h => ?_⟩
    rw [h]
  · rw [List.mem_singleton.mp h]
    refine ⟨.inl rfl, ?_⟩
    rcases r.exit_source q p with h | h
    · exact .inl (by rw [h.1])
    · exact .inr h

theorem Row.wiresTo_task (n : Node) (next : Row) (q : Port) (p t : Nat) :
    (Row.task n next).wiresTo q p t = ⟨q, p⟩ :: next.wiresTo ⟨p, 0, none⟩ (p + 1) t := rfl

theorem Row.wiresTo_fork (arms : Arms) (next : Row) (q : Port) (p t : Nat) :
    (Row.fork arms next).wiresTo q p t = ⟨q, p⟩ :: (arms.wires p 0 (p + 2) ++
      next.wiresTo ⟨p + 1, 0, none⟩ (p + 2 + arms.size) t) :=
  (IsBlock.fork arms next).wiresTo_eq q p t

theorem Row.wiresTo_decision (arms : Arms) (next : Row) (q : Port) (p t : Nat) :
    (Row.decision arms next).wiresTo q p t = ⟨q, p⟩ :: (arms.wires p 0 (p + 2) ++
      next.wiresTo ⟨p + 1, 0, none⟩ (p + 2 + arms.size) t) :=
  (IsBlock.decision arms next).wiresTo_eq q p t

theorem Row.avoid {r : Row} {q : Port} {p t v : Nat} (hq : v ≠ q.source) (ht : v ≠ t)
    (hv : v < p ∨ p + r.size ≤ v) : Avoid (r.wiresTo q p t) v := by
  intro e he
  have := Row.mem_wiresTo e he
  omega

theorem Arms.avoid {arms : Arms} {opening k p v : Nat} (ho : v ≠ opening) (hc : v ≠ opening + 1)
    (hv : v < p ∨ p + arms.size ≤ v) : Avoid (arms.wires opening k p) v := by
  intro e he
  have := arms.mem_wires opening k p e he
  omega

theorem avoid_entry {q : Port} {p v : Nat} (hq : v ≠ q.source) (hp : v ≠ p) :
    Avoid [⟨q, p⟩] v := by
  intro e he
  rw [List.mem_singleton.mp he]
  exact ⟨hq.symm, hp.symm⟩

/-- Where a row is entered: at its first vertex, or where it leads to if it has none. -/
def Row.head : Row → Nat → Nat → Nat
  | .done, _, t => t
  | _, p, _ => p

/-- The wire of entry comes first. -/
theorem Row.wiresTo_eq_cons (r : Row) (q : Port) (p t : Nat) :
    ∃ rest, r.wiresTo q p t = ⟨q, r.head p t⟩ :: rest ∧ ∀ e ∈ rest, p ≤ e.port.source := by
  have hbehind : ∀ (i : Nat) (next : Row) (p' : Nat), p ≤ i → p ≤ p' →
      ∀ e ∈ next.wiresTo ⟨i, 0, none⟩ p' t, p ≤ e.port.source := by
    intro i next p' hi hp' e he
    have hs : e.port.source = i ∨ p' ≤ e.port.source := (Row.mem_wiresTo e he).2.imp_right And.left
    omega
  have hblock : ∀ (arms : Arms) (next : Row), ∀ e ∈ arms.wires p 0 (p + 2) ++
      next.wiresTo ⟨p + 1, 0, none⟩ (p + 2 + arms.size) t, p ≤ e.port.source := by
    intro arms next e he
    rcases List.mem_append.mp he with he | he
    · have := (arms.mem_wires p 0 (p + 2) e he).2
      omega
    · exact hbehind _ next _ (by omega) (by omega) e he
  cases r with
  | done => exact ⟨[], rfl, by simp⟩
  | task n next =>
    exact ⟨_, wiresTo_task n next q p t, hbehind p next (p + 1) (Nat.le_refl p) (Nat.le_succ p)⟩
  | fork arms next => exact ⟨_, wiresTo_fork arms next q p t, hblock arms next⟩
  | decision arms next => exact ⟨_, wiresTo_decision arms next q p t, hblock arms next⟩

theorem Row.wiresFrom_entry (r : Row) {q : Port} {p : Nat} (t : Nat) (hq : q.source < p) :
    wiresFrom (r.wiresTo q p t) q.source = [⟨q, r.head p t⟩] := by
  obtain ⟨rest, hrow, hsource⟩ := r.wiresTo_eq_cons q p t
  have hrest : wiresFrom rest q.source = [] := by
    refine wiresFrom_eq_nil fun e he => ?_
    have := hsource e he
    omega
  rw [hrow, wiresFrom_cons, if_pos rfl, hrest, List.append_nil]

theorem Arms.wires_arm (c : Option Condition) (row : Row) (more : Arms) (opening k p : Nat) :
    (Arms.arm c row more).wires opening k p =
      row.wiresTo ⟨opening, k, c⟩ p (opening + 1) ++ more.wires opening (k + 1) (p + row.size) := by
  simp [wires, Row.wiresTo]

/-- From the opening, one wire leaves for each arm. -/
theorem Arms.wiresFrom_opening : ∀ (arms : Arms) (opening k p : Nat), opening < p →
    (wiresFrom (arms.wires opening k p) opening).map (·.port.condition) = arms.conditions ∧
      (wiresFrom (arms.wires opening k p) opening).map (·.port.index) =
        List.range' k arms.conditions.length
  | .none, _, _, _, _ => ⟨rfl, rfl⟩
  | .arm c row more, opening, k, p, ho => by
    have hfirst := row.wiresFrom_entry (q := ⟨opening, k, c⟩) (opening + 1) ho
    have hmore := Arms.wiresFrom_opening more opening (k + 1) (p + row.size)
      (Nat.lt_add_right row.size ho)
    rw [wires_arm, wiresFrom_append, hfirst, List.map_append, List.map_append, hmore.1, hmore.2]
    exact ⟨rfl, rfl⟩

/-- Into the closing, the last wire of each arm leads. -/
theorem Arms.wiresInto_closing : ∀ (arms : Arms) (opening k p : Nat), opening + 1 < p →
    wiresInto (arms.wires opening k p) (opening + 1) = arms.ends opening k p
  | .none, _, _, _, _ => rfl
  | .arm c row more, opening, k, p, ho => by
    have hrow : wiresInto (row.wires ⟨opening, k, c⟩ p) (opening + 1) = [] := by
      refine wiresInto_eq_nil fun e he => ?_
      have := (row.mem_wires _ _ e he).1
      omega
    rw [wires, ends, wiresInto_append, hrow, wiresInto_cons, if_pos rfl, List.nil_append,
      wiresInto_closing more opening (k + 1) (p + row.size) (Nat.lt_add_right row.size ho)]
    rfl

/-! ## What is around each site -/

/-- The opening and the closing of a block, with whatever row comes next. -/
theorem Arms.sits_opening {arms : Arms} {next : Row} {q : Port} {p t : Nat} {role : Role}
    {blocks : List (Role × List (Option Condition))} (hq : q.source < p)
    (ht : t < p ∨ p + (arms.size + next.size + 2) ≤ t) (hmem : (role, arms.conditions) ∈ blocks) :
    Sits blocks (⟨q, p⟩ :: (arms.wires p 0 (p + 2) ++
      next.wiresTo ⟨p + 1, 0, .none⟩ (p + 2 + arms.size) t)) p role := by
  have hnext : Avoid (next.wiresTo ⟨p + 1, 0, .none⟩ (p + 2 + arms.size) t) p :=
    Row.avoid (show p ≠ p + 1 by omega) (by omega) (by omega)
  have hinto : wiresInto (arms.wires p 0 (p + 2)) p = [] := by
    refine wiresInto_eq_nil fun e he => ?_
    have := (arms.mem_wires p 0 (p + 2) e he).1
    omega
  obtain ⟨hcond, hnum⟩ := arms.wiresFrom_opening p 0 (p + 2) (by omega)
  unfold Sits
  rw [wiresFrom_cons, if_neg (show q.source ≠ p by omega), wiresInto_cons, if_pos rfl,
    wiresFrom_append, wiresInto_append, hnext.wiresFrom, hnext.wiresInto, hinto]
  simp only [List.nil_append, List.append_nil]
  exact .opening hmem hcond (List.range_eq_range' ▸ hnum)

theorem Arms.sits_closing {arms : Arms} {next : Row} {q : Port} {p t : Nat} {role : Role}
    {blocks : List (Role × List (Option Condition))} (hq : q.source < p)
    (ht : t < p ∨ p + (arms.size + next.size + 2) ≤ t) (hmem : (role, arms.conditions) ∈ blocks) :
    Sits blocks (⟨q, p⟩ :: (arms.wires p 0 (p + 2) ++
      next.wiresTo ⟨p + 1, 0, .none⟩ (p + 2 + arms.size) t)) (p + 1) role.closing := by
  have hfrom : wiresFrom (arms.wires p 0 (p + 2)) (p + 1) = [] := by
    refine wiresFrom_eq_nil fun e he => ?_
    have := (arms.mem_wires p 0 (p + 2) e he).2
    omega
  have hinto : wiresInto (next.wiresTo ⟨p + 1, 0, .none⟩ (p + 2 + arms.size) t) (p + 1) = [] := by
    refine wiresInto_eq_nil fun e he => ?_
    have := (Row.mem_wiresTo e he).1
    omega
  have hone := next.wiresFrom_entry (q := ⟨p + 1, 0, .none⟩) t
    (show p + 1 < p + 2 + arms.size by omega)
  unfold Sits
  rw [wiresFrom_cons, if_neg (show q.source ≠ p + 1 by omega), wiresInto_cons,
    if_neg (show p ≠ p + 1 by omega), wiresFrom_append, wiresInto_append, hfrom, hone, hinto,
    arms.wiresInto_closing p 0 (p + 2) (Nat.lt_succ_self _), List.append_nil]
  exact .closing hmem (arms.length_ends ..)

theorem Arms.sits_inside {arms : Arms} {next : Row} {q : Port} {p t v : Nat} {role : Role}
    {blocks : List (Role × List (Option Condition))} (hq : q.source < p)
    (ht : t < p ∨ p + (arms.size + next.size + 2) ≤ t) (hsub : arms.blocks ++ next.blocks ⊆ blocks)
    (harms : (v, role) ∈ arms.sites (p + 2) → Sits arms.blocks (arms.wires p 0 (p + 2)) v role)
    (hnext : (v, role) ∈ next.sites (p + 2 + arms.size) →
      Sits next.blocks (next.wiresTo ⟨p + 1, 0, .none⟩ (p + 2 + arms.size) t) v role)
    (hv : (v, role) ∈ arms.sites (p + 2) ∨ (v, role) ∈ next.sites (p + 2 + arms.size)) :
    Sits blocks (⟨q, p⟩ :: (arms.wires p 0 (p + 2) ++
      next.wiresTo ⟨p + 1, 0, .none⟩ (p + 2 + arms.size) t)) v role := by
  have hsubs := List.append_subset.mp hsub
  rcases hv with hv | hv
  · have hlt := arms.mem_sites (p + 2) v role hv
    have hrest : Avoid (next.wiresTo ⟨p + 1, 0, .none⟩ (p + 2 + arms.size) t) v :=
      Row.avoid (show v ≠ p + 1 by omega) (by omega) (by omega)
    have hentry : Avoid [⟨q, p⟩] v := avoid_entry (by omega) (by omega)
    exact (((harms hv).mono hsubs.1).append_right hrest).append_left hentry
  · have hlt := next.mem_sites (p + 2 + arms.size) v role hv
    have hblock : Avoid (arms.wires p 0 (p + 2)) v :=
      Arms.avoid (by omega) (by omega) (by omega)
    have hentry : Avoid [⟨q, p⟩] v := avoid_entry (by omega) (by omega)
    exact (((hnext hv).mono hsubs.2).append_left hblock).append_left hentry

theorem Row.sits_task {n : Node} {next : Row} {q : Port} {p t : Nat} (hq : q.source < p)
    (ht : t < p ∨ p + (next.size + 1) ≤ t) :
    Sits next.blocks ((Row.task n next).wiresTo q p t) p (.task n.task) := by
  have hone := next.wiresFrom_entry (q := ⟨p, 0, none⟩) t (Nat.lt_succ_self p)
  have hinto : wiresInto (next.wiresTo ⟨p, 0, none⟩ (p + 1) t) p = [] := by
    refine wiresInto_eq_nil fun e he => ?_
    have := (Row.mem_wiresTo e he).1
    omega
  unfold Sits
  rw [wiresTo_task, wiresFrom_cons, if_neg (show q.source ≠ p by omega), wiresInto_cons,
    if_pos rfl, hinto, hone]
  exact .task

theorem Row.IsBlock.sits {r next : Row} {arms : Arms} {opening : Role} {q : Port} {p t : Nat}
    (h : r.IsBlock opening arms next) (hq : q.source < p) (ht : t < p ∨ p + r.size ≤ t)
    (harms : ∀ (v : Nat) (role : Role), (v, role) ∈ arms.sites (p + 2) →
      Sits arms.blocks (arms.wires p 0 (p + 2)) v role)
    (hnext : (t < p + 2 + arms.size ∨ p + 2 + arms.size + next.size ≤ t) →
      ∀ (v : Nat) (role : Role), (v, role) ∈ next.sites (p + 2 + arms.size) →
        Sits next.blocks (next.wiresTo ⟨p + 1, 0, none⟩ (p + 2 + arms.size) t) v role)
    (v : Nat) (role : Role) (hv : (v, role) ∈ r.sites p) :
    Sits r.blocks (r.wiresTo q p t) v role := by
  rw [h.size_eq] at ht
  simp only [h.sites_eq, List.mem_cons, List.mem_append, Prod.mk.injEq] at hv
  rw [h.wiresTo_eq, h.blocks_eq]
  rcases hv with ⟨rfl, rfl⟩ | ⟨rfl, rfl⟩ | hv
  · exact Arms.sits_opening hq ht List.mem_cons_self
  · exact Arms.sits_closing hq ht List.mem_cons_self
  · exact Arms.sits_inside hq ht (List.subset_cons_self _ _) (harms v role)
      (hnext (by omega) v role) hv

mutual

theorem Row.sits : ∀ (r : Row) {q : Port} {p t : Nat}, q.source < p →
    (t < p ∨ p + r.size ≤ t) → ∀ (v : Nat) (role : Role), (v, role) ∈ r.sites p →
      Sits r.blocks (r.wiresTo q p t) v role
  | .done, _, _, _ => fun _ _ _ _ hv => by cases hv
  | .task n next, q, p, t => fun hq ht v role hv => by
    simp only [Row.sites, List.mem_cons, Prod.mk.injEq] at hv
    simp only [Row.size] at ht
    rcases hv with ⟨rfl, rfl⟩ | hv
    · exact Row.sits_task hq ht
    · have hlt := next.mem_sites (p + 1) v role hv
      have hnext := Row.sits next (q := ⟨p, 0, none⟩) (t := t) (Nat.lt_succ_self p) (by omega)
        v role hv
      rw [Row.wiresTo_task]
      exact hnext.append_left (avoid_entry (by omega) (by omega))
  | .fork arms next, _, p, _ => fun hq ht =>
    (Row.IsBlock.fork arms next).sits hq ht (Arms.sits arms p 0 (p + 2) (Nat.lt_succ_self _))
      (Row.sits next (show p + 1 < p + 2 + arms.size by omega))
  | .decision arms next, _, p, _ => fun hq ht =>
    (Row.IsBlock.decision arms next).sits hq ht (Arms.sits arms p 0 (p + 2) (Nat.lt_succ_self _))
      (Row.sits next (show p + 1 < p + 2 + arms.size by omega))

theorem Arms.sits : ∀ (arms : Arms) (opening k p : Nat), opening + 1 < p →
    ∀ (v : Nat) (role : Role), (v, role) ∈ arms.sites p →
      Sits arms.blocks (arms.wires opening k p) v role
  | .none, _, _, _ => fun _ _ _ hv => by cases hv
  | .arm c row more, opening, k, p => fun ho v role hv => by
    rw [Arms.wires_arm]
    rcases List.mem_append.mp hv with hv | hv
    · have hlt := row.mem_sites p v role hv
      have hrow := Row.sits row (q := ⟨opening, k, c⟩) (t := opening + 1)
        (show opening < p by omega) (by omega) v role hv
      exact (hrow.mono (List.subset_append_left ..)).append_right
        (Arms.avoid (by omega) (by omega) (by omega))
    · have hlt := more.mem_sites (p + row.size) v role hv
      have hmore := Arms.sits more opening (k + 1) (p + row.size) (Nat.lt_add_right row.size ho)
        v role hv
      exact (hmore.mono (List.subset_append_right ..)).append_left
        (Row.avoid (show v ≠ opening by omega) (by omega) (by omega))

end

/-! ## Every site of a proper row is suited -/

mutual

/-- The blocks of a proper row have room for their arms. -/
theorem Row.Proper.admits : ∀ {r : Row}, r.Proper → ∀ b ∈ r.blocks,
    b.1.Admits 1 b.2 ∧ ∀ parents, b.1.closing.Admits parents [none]
  | .done, _ => fun b hb => by cases hb
  | .task _ next, h => Row.Proper.admits (r := next) h
  | .fork arms next, h
  | .decision arms next, h => fun b hb => by
    simp only [Row.blocks, List.mem_cons, List.mem_append] at hb
    rcases hb with rfl | hb | hb
    · exact ⟨⟨fun _ h => Option.some.inj h ▸ Nat.le_refl 1, h.1.2⟩, fun _ => by
        simp [Role.closing, Role.Admits, Role.maxParents?]⟩
    · exact Arms.Proper.admits h.2.1 b hb
    · exact Row.Proper.admits h.2.2 b hb

theorem Arms.Proper.admits : ∀ {arms : Arms}, arms.Proper → ∀ b ∈ arms.blocks,
    b.1.Admits 1 b.2 ∧ ∀ parents, b.1.closing.Admits parents [none]
  | .none, _ => fun b hb => by cases hb
  | .arm _ _ _, h => fun b hb => by
    rcases List.mem_append.mp hb with hb | hb
    · exact Row.Proper.admits h.1 b hb
    · exact Arms.Proper.admits h.2 b hb

end

theorem Row.suits (r : Row) {q : Port} {p t : Nat} (hr : r.Proper) (hq : q.source < p)
    (ht : t < p ∨ p + r.size ≤ t) (v : Nat) (role : Role) (hv : (v, role) ∈ r.sites p) :
    Suits (r.wiresTo q p t) v role := by
  have hsits := r.sits hq ht v role hv
  unfold Sits at hsits
  unfold Suits
  generalize wiresFrom (r.wiresTo q p t) v = out at hsits ⊢
  generalize wiresInto (r.wiresTo q p t) v = into at hsits ⊢
  cases hsits with
  | task => exact ⟨⟨fun _ h => Option.some.inj h ▸ Nat.le_refl 1, by simp⟩, rfl⟩
  | opening hmem hcond hnum =>
    have hlen := congrArg List.length hcond
    rw [List.length_map] at hlen
    exact ⟨hcond ▸ (hr.admits _ hmem).1, hlen ▸ hnum⟩
  | closing hmem _ => exact ⟨(hr.admits _ hmem).2 _, rfl⟩

end BatchFlow

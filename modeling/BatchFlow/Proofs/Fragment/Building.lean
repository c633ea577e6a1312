import BatchFlow.Proofs.Fragment.Nodes

/-!
# Fragments are built

Whatever a fragment is, it can be built behind a place that nothing comes behind yet, and what is
built is a strand with the blocks that the fragment asks for. By induction on the fragment: each part
of a row comes behind the last node of the part before it, which is the last node of all. The
branches of a fragment all come behind one place, so their heads have to be allowed next to each
other, but an arm adds nothing behind that place apart from its head. And the exits of the arms lead
nowhere before they are joined.
-/

namespace BatchFlow
namespace Fragment.Assembly

variable {s s' : Assembly} {a : Place}

/-! ## Strands in a row -/

/-- The last node is the exit of a strand behind the place, with so many blocks of each sort. -/
structure Laid (s : Assembly) (a : Place) (first : Nat) (blocks : Role → Nat) (exit : NodeId) :
    Prop where
  size_eq : exit + 1 = s.dag.size
  strand : ∀ role, Strand s.dag.Enters role a first exit (blocks role)

theorem Fine.exists_behind (hs : s.Fine) (ha : s.Free a) {stem : String} (hstem : stem ∈ stems) :
    ∃ s', s.node stem (.under a none) [] = .ok (s.dag.size, s') ∧ s.Gained [(a, none)] s' :=
  hs.exists_under hstem ha.1 (fun _ => rfl) fun u hu k v hv => absurd hv (ha.2 u hu k v)

theorem Gained.laid (h : s.Gained [(a, none)] s') : s'.Laid a s.dag.size (fun _ => 0) s.dag.size :=
  ⟨h.size_eq.symm, fun _ => .step h.only⟩

theorem Laid.seq {first mid exit : Nat} {j k : Role → Nat} (h : s.Laid a first j mid)
    (hgrown : s.Grown s') (hnext : s'.Laid (.node mid) s.dag.size k exit) :
    s'.Laid a first (fun role => j role + k role) exit := by
  refine ⟨hnext.size_eq, fun role => ?_⟩
  have hstrand := hnext.strand role
  rw [← h.size_eq] at hstrand
  exact .seq ((h.strand role).mono hgrown.same_of_enters) hstrand

/-- A step is built behind a place that nothing comes behind. -/
theorem Fine.exists_step (hs : s.Fine) (ha : s.Free a) :
    ∃ exit s', s.node "t" (.under a none) [] = .ok (exit, s') ∧ s.Grown s' ∧
      s'.Laid a s.dag.size (fun _ => 0) exit := by
  obtain ⟨s', hnode, hgained⟩ := hs.exists_behind ha (show "t" ∈ stems by decide)
  exact ⟨s.dag.size, s', hnode, hgained.toGrown, hgained.laid⟩

/-! ## Strands side by side -/

/-- Branches under the conditions from the index on may come behind the place, next to each other and
to those that are there. -/
structure Room (s : Assembly) (a : Place) (condition : Nat → Option Condition) (index upto : Nat) :
    Prop where
  rank_le : a.rank ≤ s.dag.size
  source : a = .source → ∀ i, condition i = none
  beside : ∀ i j, i < j → j < upto → Beside (condition i) (condition j)
  used : ∀ u, a = .node u → ∀ c v, s.dag.Enters (.node u) c v → ∃ i < index, c = condition i

/-- Nothing comes behind the place, so there is room for branches that may stand together. -/
theorem Free.room (h : s.Free a) {condition : Nat → Option Condition} {upto : Nat}
    (hsource : a = .source → ∀ i, condition i = none)
    (hbeside : ∀ i j, i < j → j < upto → Beside (condition i) (condition j)) :
    s.Room a condition 0 upto :=
  ⟨h.1, hsource, hbeside, fun u hu c v hv => absurd hv (h.2 u hu c v)⟩

namespace Room

variable {condition : Nat → Option Condition} {index upto : Nat}

/-- The next head finds room. -/
theorem exists_head (h : s.Room a condition index upto) (hs : s.Fine) {stem : String}
    (hstem : stem ∈ stems) (hindex : index < upto) :
    ∃ s', s.node stem (.under a (condition index)) [] = .ok (s.dag.size, s') ∧
      s.Gained [(a, condition index)] s' := by
  refine hs.exists_under hstem h.rank_le (fun ha => h.source ha index) fun u hu k v hv => ?_
  obtain ⟨i, hi, rfl⟩ := h.used u hu k v hv
  exact h.beside i index hi hindex

/-- A head and the strand behind it leave room for the next branch. -/
theorem next {s₁ s₂ : Assembly} {exit : Nat} {k : Role → Nat} (h : s.Room a condition index upto)
    (hhead : s.Gained [(a, condition index)] s₁) (hgrown : s₁.Grown s₂)
    (harm : s₂.Laid (.node s.dag.size) s₁.dag.size k exit) :
    s₂.Room a condition (index + 1) upto := by
  have hall := hhead.toGrown.trans hgrown
  refine ⟨Nat.le_trans h.rank_le hall.size_le, h.source, h.beside, ?_⟩
  rintro u rfl c v hv
  have hbefore : Place.rank (.node u) ≤ s.dag.size := h.rank_le
  -- An edge out of the place enters what was there before, or the head, but not the arm behind it.
  rcases Nat.lt_trichotomy v s.dag.size with hlt | rfl | hlt
  · obtain ⟨i, hi, rfl⟩ := h.used u rfl c v ((hall.same _ c v hlt).mp hv)
    exact ⟨i, Nat.lt_succ_of_lt hi, rfl⟩
  · have hnew : s.dag.size < s₁.dag.size := hhead.size_eq ▸ Nat.lt_succ_self _
    exact ⟨index, Nat.lt_succ_self _, (hhead.only.eq_of_enters ((hgrown.same _ c _ hnew).mp hv)).2⟩
  · have hfirst : s₁.dag.size ≤ v := hhead.size_eq ▸ hlt
    have hexit : v ≤ exit := Nat.le_of_lt_succ (Nat.lt_of_lt_of_eq hv.lt_size harm.size_eq.symm)
    exact absurd hv ((harm.strand .fork).not_enters (Nat.le_trans hbefore hhead.size_le)
      (Place.node_ne_of_rank_le hbefore) hfirst hexit)

end Room

/-- Arms behind the place, under the conditions of so many indices, up to the last node. -/
structure Spread (s : Assembly) (a : Place) (first : Nat) (conditions : List (Option Condition))
    (blocks : Role → Nat) (heads : List (Nat × Option Condition)) (exits : List NodeId) : Prop where
  conditions_eq : heads.map Prod.snd = conditions
  strands : ∀ role, Strands s.dag.Enters role a first s.dag.size heads exits (blocks role)

namespace Spread

variable {conditions : List (Option Condition)} {k : Role → Nat}
  {heads : List (Nat × Option Condition)} {exits : List NodeId}

theorem length_heads (h : s'.Spread a s.dag.size conditions k heads exits) :
    heads.length = conditions.length := by
  rw [← h.conditions_eq, List.length_map]

/-- The exits of arms lead nowhere. -/
theorem free (h : s'.Spread a s.dag.size conditions k heads exits) (hgrown : s.Grown s')
    (ha : a.rank ≤ s.dag.size) : ∀ x ∈ exits, s'.Free (.node x) := by
  intro x hx
  have hstrands := h.strands .fork
  obtain ⟨hfirst, hlt⟩ := hstrands.bounds.2.2 x hx
  refine ⟨hlt, fun u hu c v hv => ?_⟩
  obtain rfl := Place.node.inj hu
  rcases Nat.lt_or_ge v s.dag.size with hv' | hv'
  · have hforward : x + 1 ≤ v := hgrown.fine.sound.enters_forward _ c v hv
    exact absurd hv' (Nat.not_lt_of_le (Nat.le_trans hfirst (Nat.le_of_succ_le hforward)))
  · rcases hstrands.entered _ c v hv' hv.lt_size hv with ⟨heq, -⟩ | ⟨u, hu, -, -, hnot⟩
    · exact Place.node_ne_of_rank_le (Nat.le_trans ha hfirst) heq.symm
    · exact hnot (Place.node.inj hu ▸ hx)

/-- Arms can be joined. -/
theorem exists_join (h : s'.Spread a s.dag.size conditions k heads exits) (hgrown : s.Grown s')
    (ha : a.rank ≤ s.dag.size) (hne : conditions ≠ []) {stem : String} (hstem : stem ∈ stems) :
    ∃ s'', s'.node stem .root exits = .ok (s'.dag.size, s'') ∧ s'.Gained (plainFrom exits) s'' := by
  have hstrands := h.strands .fork
  refine hgrown.fine.exists_joining hstem ?_ (hstrands.exits_sorted.imp Nat.ne_of_lt)
    (h.free hgrown ha)
  have hlength : exits.length = conditions.length := by
    rw [hstrands.length_exits, h.length_heads]
  rwa [← List.length_pos_iff, hlength, List.length_pos_iff]

end Spread
end Fragment.Assembly

/-! ## Fragments -/

open Fragment

/-- The condition of a branch, of which the last is the default one. -/
def caseCondition (last index : Nat) : Option Condition :=
  some (if index = last then .otherwise else .labeled (caseLabel index))

theorem caseEntry_eq (owner : NodeId) (last : Nat) :
    caseEntry owner last = fun index => .under (.node owner) (caseCondition last index) := by
  funext index
  unfold caseEntry caseCondition
  split <;> rfl

theorem beside_caseCondition {last i j : Nat} (hij : i < j) (hj : j < last + 1) :
    Beside (caseCondition last i) (caseCondition last j) := by
  have hi : i ≠ last := Nat.ne_of_lt (Nat.lt_of_lt_of_le hij (Nat.le_of_lt_succ hj))
  simp [Beside, caseCondition, hi]

mutual

/-- A fragment is built behind a place that nothing comes behind. -/
theorem Fragment.exists_build {a : Place} {s : Assembly} (hs : s.Fine) (ha : s.Free a) :
    (f : Fragment) → ∃ exit s', f.build (.under a none) s = .ok (exit, s') ∧ s.Grown s' ∧
      s'.Laid a s.dag.size (f.blocks ·) exit
  | .track => hs.exists_step ha
  | .seq .none => hs.exists_step ha
  | .seq (.more first rest) => by
    obtain ⟨mid, s₁, hfirst, hgrown₁, hlaid₁⟩ := Fragment.exists_build hs ha first
    obtain ⟨exit, s₂, hrest, hgrown₂, hlaid₂⟩ := Fragments.exists_buildRow hgrown₁.fine hlaid₁ rest
    exact ⟨exit, s₂, bind_eq_ok_iff.mpr ⟨_, hfirst, hrest⟩, hgrown₁.trans hgrown₂, hlaid₂⟩
  | .par (n := n) arms => by
    have hroom : s.Room a (fun _ => none) 0 (0 + (n + 2)) :=
      ha.room (fun _ _ => rfl) fun _ _ _ _ => by simp [Beside]
    obtain ⟨heads, exits, s₁, harms, hgrown, hspread⟩ :=
      Fragments.exists_buildArms hs (show "p" ∈ stems by decide) arms hroom
    obtain ⟨s₂, hjoin, hgained⟩ :=
      hspread.exists_join hgrown ha.1 (by simp) (show "j" ∈ stems by decide)
    refine ⟨s₁.dag.size, s₂, bind_eq_ok_iff.mpr ⟨_, harms, hjoin⟩, hgrown.trans hgained.toGrown,
      hgained.size_eq.symm, fun role => ?_⟩
    have hstrands := (hspread.strands role).mono hgained.same_of_enters
    refine .fork hstrands ?_ (fun h hh => ?_) hgained.only
    · simp [hspread.length_heads]
    · obtain ⟨-, -, heq⟩ :=
        List.mem_map.mp (hspread.conditions_eq ▸ List.mem_map_of_mem (f := Prod.snd) hh)
      exact heq.symm
  | .branch (n := last) arms => by
    obtain ⟨s₁, howner, hgained₁⟩ := hs.exists_behind ha (show "d" ∈ stems by decide)
    have hfree := hgained₁.fine.free_last hgained₁.size_eq.symm
    have hroom : s₁.Room (.node s.dag.size) (caseCondition last) 0 (0 + (last + 1)) :=
      hfree.room (fun h => by cases h) fun i j hij hj => beside_caseCondition hij (by omega)
    obtain ⟨heads, exits, s₂, harms, hgrown, hspread⟩ :=
      Fragments.exists_buildArms hgained₁.fine (show "c" ∈ stems by decide) arms hroom
    obtain ⟨s₃, hjoin, hgained₂⟩ :=
      hspread.exists_join hgrown hfree.1 (by simp) (show "m" ∈ stems by decide)
    rw [← caseEntry_eq] at harms
    refine ⟨s₂.dag.size, s₃, bind_eq_ok_iff.mpr ⟨_, howner, bind_eq_ok_iff.mpr ⟨_, harms, hjoin⟩⟩,
      (hgained₁.toGrown.trans hgrown).trans hgained₂.toGrown, hgained₂.size_eq.symm, fun role => ?_⟩
    have hhead := (hgained₁.only.mono hgrown.same_of_enters).mono hgained₂.same_of_enters
    have hstrands := (hspread.strands role).mono hgained₂.same_of_enters
    rw [hgained₁.size_eq] at hstrands
    refine .decision hhead hstrands ?_ hgained₂.only
    have hlast : caseCondition last last ∈ heads.map Prod.snd :=
      hspread.conditions_eq ▸ List.mem_map_of_mem (by simp)
    obtain ⟨h, hh, heq⟩ := List.mem_map.mp hlast
    exact ⟨h, hh, by rw [heq, caseCondition, if_pos rfl]⟩

/-- A row is built behind the strand that its first parts are. -/
theorem Fragments.exists_buildRow {a : Place} {s : Assembly} (hs : s.Fine) {first out : Nat}
    {j : Role → Nat} (hlaid : s.Laid a first j out) : {n : Nat} → (parts : Fragments n) →
    ∃ exit s', parts.buildRow (.after out) (some out) s = .ok (exit, s') ∧ s.Grown s' ∧
      s'.Laid a first (fun role => j role + parts.blocks role) exit
  | _, .none => ⟨out, s, rfl, .refl hs, hlaid⟩
  | _, .more f rest => by
    obtain ⟨mid, s₁, hfirst, hgrown₁, hlaid₁⟩ :=
      Fragment.exists_build hs (hs.free_last hlaid.size_eq) f
    obtain ⟨exit, s₂, hrest, hgrown₂, hlaid₂⟩ :=
      Fragments.exists_buildRow hgrown₁.fine (hlaid.seq hgrown₁ hlaid₁) rest
    refine ⟨exit, s₂, bind_eq_ok_iff.mpr ⟨_, hfirst, hrest⟩, hgrown₁.trans hgrown₂, ?_⟩
    simpa only [Fragments.blocks, Nat.add_assoc] using hlaid₂

/-- Arms are built behind a place that has room for them. -/
theorem Fragments.exists_buildArms {a : Place} {s : Assembly} (hs : s.Fine) {stem : String}
    (hstem : stem ∈ stems) {condition : Nat → Option Condition} {index : Nat} : {n : Nat} →
    (arms : Fragments n) → s.Room a condition index (index + n) →
    ∃ heads exits s', arms.buildArms stem (fun i => .under a (condition i)) index s =
        .ok (exits, s') ∧ s.Grown s' ∧
      s'.Spread a s.dag.size ((List.range' index n).map condition) (arms.blocks ·) heads exits
  | _, .none => fun _ => ⟨[], [], s, rfl, .refl hs, rfl, fun _ => .none _ _⟩
  | n + 1, .more f rest => fun hroom => by
    obtain ⟨s₁, hhead, hgained⟩ := hroom.exists_head hs hstem (by omega)
    obtain ⟨exit, s₂, harm, hgrown₂, hlaid⟩ :=
      Fragment.exists_build hgained.fine (hgained.fine.free_last hgained.size_eq.symm) f
    have hnext := hroom.next hgained hgrown₂ hlaid
    rw [← Nat.add_assoc, Nat.add_right_comm] at hnext
    obtain ⟨heads, exits, s₃, hrest, hgrown₃, hspread⟩ :=
      Fragments.exists_buildArms hgrown₂.fine hstem rest hnext
    refine ⟨(s.dag.size, condition index) :: heads, exit :: exits, s₃, ?_, ?_, ?_, fun role => ?_⟩
    · exact bind_eq_ok_iff.mpr ⟨_, hhead, bind_eq_ok_iff.mpr ⟨_, harm, bind_eq_ok_iff.mpr
        ⟨_, hrest, rfl⟩⟩⟩
    · exact (hgained.toGrown.trans hgrown₂).trans hgrown₃
    · exact congrArg (condition index :: ·) hspread.conditions_eq
    · have hstrand := (hlaid.strand role).mono hgrown₃.same_of_enters
      have hstrands := hspread.strands role
      rw [hgained.size_eq] at hstrand
      rw [← hlaid.size_eq] at hstrands
      exact .more ((hgained.only.mono hgrown₂.same_of_enters).mono hgrown₃.same_of_enters) hstrand
        hstrands

end

/-- Two branches, one of which decides whether to take a step. -/
example : ((Fragment.par (.more .track (.more (.branch (.more .track .none)) .none))).build
      .root {}).map (fun built => built.2.dag.nodes.map fun n => (n.name, n.children)) =
    .ok [("p1", [1]), ("t2", [7]), ("p3", [3]), ("d4", [4]), ("c5", [5]), ("t6", [6]), ("m7", [7]),
      ("j8", [])] := by
  cbv

end BatchFlow

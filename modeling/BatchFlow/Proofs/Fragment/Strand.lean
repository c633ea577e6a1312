import BatchFlow.Graph.Vertex
import BatchFlow.Proofs.Workflow.Inflow

/-!
# Strands

A strand is a stretch of nodes with consecutive ids that lies behind one place and ends at one node:
a single node, two strands one after the other, or strands side by side that begin with nodes of
their own and are joined by the last node. A strand is told by the edges into each of its nodes, so
it stays a strand when more nodes are added to the dag.

Edges into a strand come from the place before it or from within it. If the edges out of that place
and out of the nodes before the exit lie within the strand, the strand is closed, and so is each of
its parts.
-/

namespace BatchFlow

/-- What joins strands: plain edges from their exits. -/
def plainFrom (exits : List Nat) : List (Place × Option Condition) :=
  exits.map fun x => (.node x, none)

mutual

/-- The nodes from `first` to `exit` lie behind the place `a`, with so many blocks of one sort. -/
inductive Strand (enters : Inflow) (role : Role) : Place → Nat → Nat → Nat → Prop
  | step {a : Place} {v : Nat} : enters.Only v [(a, none)] → Strand enters role a v v 0
  | seq {a : Place} {first mid exit j k : Nat} : Strand enters role a first mid j →
      Strand enters role (.node mid) (mid + 1) exit k → Strand enters role a first exit (j + k)
  | fork {a : Place} {first join k : Nat} {heads : List (Nat × Option Condition)}
      {exits : List Nat} : Strands enters role a first join heads exits k →
      2 ≤ heads.length → (∀ h ∈ heads, h.2 = none) → enters.Only join (plainFrom exits) →
      Strand enters role a first join ((if role = .fork then 1 else 0) + k)
  | decision {a : Place} {owner join k : Nat} {heads : List (Nat × Option Condition)}
      {exits : List Nat} : enters.Only owner [(a, none)] →
      Strands enters role (.node owner) (owner + 1) join heads exits k →
      (∃ h ∈ heads, h.2 = some .otherwise) → enters.Only join (plainFrom exits) →
      Strand enters role a owner join ((if role = .decision then 1 else 0) + k)

/-- The nodes from `first` up to, but without, `next` are strands side by side, each behind a head
of its own. The heads come from the place `a`. -/
inductive Strands (enters : Inflow) (role : Role) :
    Place → Nat → Nat → List (Nat × Option Condition) → List Nat → Nat → Prop
  | none (a : Place) (first : Nat) : Strands enters role a first first [] [] 0
  | more {a : Place} {head exit next j k : Nat} {c : Option Condition}
      {heads : List (Nat × Option Condition)} {exits : List Nat} : enters.Only head [(a, c)] →
      Strand enters role (.node head) (head + 1) exit j →
      Strands enters role a (exit + 1) next heads exits k →
      Strands enters role a head next ((head, c) :: heads) (exit :: exits) (j + k)

end

variable {enters : Inflow} {role : Role}

theorem Inflow.Only.enters_plain_iff {v : Nat} {exits : List Nat} (h : enters.Only v (plainFrom exits))
    {b : Place} {c : Option Condition} :
    enters b c v ↔ c = none ∧ ∃ x ∈ exits, b = .node x := by
  rw [h.2, plainFrom, List.mem_map]
  constructor
  · rintro ⟨x, hx, hxb⟩
    obtain ⟨rfl, rfl⟩ := Prod.mk.inj hxb
    exact ⟨rfl, x, hx, rfl⟩
  · rintro ⟨rfl, x, hx, rfl⟩
    exact ⟨x, hx, rfl⟩

/-! ## Where the nodes of a strand lie -/

mutual

theorem Strand.first_le {a : Place} {first exit k : Nat} : Strand enters role a first exit k → first ≤ exit
  | .step _ => Nat.le_refl _
  | .seq hs ht => by
    have := Strand.first_le hs
    have := Strand.first_le ht
    omega
  | .fork hs _ _ _ => (Strands.bounds hs).1
  | .decision _ hs _ _ => Nat.le_of_succ_le (Strands.bounds hs).1

theorem Strands.bounds {a : Place} {first next k : Nat} {heads : List (Nat × Option Condition)}
    {exits : List Nat} : Strands enters role a first next heads exits k → first ≤ next ∧
      (∀ h ∈ heads, first ≤ h.1 ∧ h.1 < next) ∧ ∀ x ∈ exits, first ≤ x ∧ x < next
  | .none _ _ => by simp
  | .more _ hs hmore => by
    have hlt := Strand.first_le hs
    obtain ⟨hle, hheads, hexits⟩ := Strands.bounds hmore
    refine ⟨by omega, List.forall_mem_cons.mpr ⟨by omega, fun h hh => ?_⟩,
      List.forall_mem_cons.mpr ⟨by omega, fun x hx => ?_⟩⟩
    · have := hheads h hh
      omega
    · have := hexits x hx
      omega

end

theorem Strands.length_exits {a : Place} {first next k : Nat} {heads : List (Nat × Option Condition)}
    {exits : List Nat} :
    Strands enters role a first next heads exits k → exits.length = heads.length
  | .none _ _ => rfl
  | .more _ _ hmore => congrArg (· + 1) (Strands.length_exits hmore)

theorem Strands.exits_sorted {a : Place} {first next k : Nat} {heads : List (Nat × Option Condition)}
    {exits : List Nat} :
    Strands enters role a first next heads exits k → exits.Pairwise (· < ·)
  | .none _ _ => .nil
  | .more _ _ hmore =>
    .cons (fun x hx => ((Strands.bounds hmore).2.2 x hx).1) (Strands.exits_sorted hmore)

theorem Strands.heads_sorted {a : Place} {first next k : Nat} {heads : List (Nat × Option Condition)}
    {exits : List Nat} :
    Strands enters role a first next heads exits k → heads.Pairwise (·.1 < ·.1)
  | .none _ _ => .nil
  | .more _ hs hmore => by
    refine .cons (fun h hh => ?_) (Strands.heads_sorted hmore)
    have := Strand.first_le hs
    have := (Strands.bounds hmore).2.1 h hh
    show _ < h.1
    omega

/-- A head is entered from the place before the strands alone. -/
theorem Strands.only_head {a : Place} {first next k : Nat} {heads : List (Nat × Option Condition)}
    {exits : List Nat} : Strands enters role a first next heads exits k →
      ∀ h ∈ heads, enters.Only h.1 [(a, h.2)]
  | .none _ _ => by simp
  | .more hhead _ hmore => List.forall_mem_cons.mpr ⟨hhead, Strands.only_head hmore⟩

/-! ## Edges into a strand -/

mutual

/-- What enters a strand comes from the place before it, plainly, or from within it. -/
theorem Strand.entered {a : Place} {first exit k : Nat} : Strand enters role a first exit k →
    ∀ b c v, first ≤ v → v ≤ exit → enters b c v →
      b = a ∧ c = none ∨ ∃ u, b = .node u ∧ first ≤ u ∧ u < v
  | .step honly => fun b c v hfirst hexit hb => by
    obtain rfl := Nat.le_antisymm hfirst hexit
    exact .inl (honly.eq_of_enters hb)
  | @Strand.seq _ _ _ _ mid _ _ _ hs ht => fun b c v hfirst hexit hb => by
    have hmid := Strand.first_le hs
    by_cases hv : v ≤ mid
    · exact Strand.entered hs b c v hfirst hv hb
    · rcases Strand.entered ht b c v (by omega) hexit hb with ⟨rfl, -⟩ | ⟨u, rfl, hu, huv⟩
      · exact .inr ⟨mid, rfl, hmid, by omega⟩
      · exact .inr ⟨u, rfl, by omega, huv⟩
  | .fork hs _ hplain honly => fun b c v hfirst hexit hb => by
    rcases Nat.lt_or_eq_of_le hexit with hv | rfl
    · rcases Strands.entered hs b c v hfirst hv hb with ⟨rfl, hh⟩ | ⟨u, rfl, hu, huv, -⟩
      · exact .inl ⟨rfl, hplain _ hh⟩
      · exact .inr ⟨u, rfl, hu, huv⟩
    · obtain ⟨-, x, hx, rfl⟩ := honly.enters_plain_iff.mp hb
      exact .inr ⟨x, rfl, (Strands.bounds hs).2.2 x hx⟩
  | @Strand.decision _ _ _ owner _ _ _ _ hhead hs _ honly => fun b c v hfirst hexit hb => by
    by_cases hv : v = owner
    · exact .inl (hhead.eq_of_enters (hv ▸ hb))
    · rcases Nat.lt_or_eq_of_le hexit with hlt | rfl
      · rcases Strands.entered hs b c v (by omega) hlt hb with ⟨rfl, -⟩ | ⟨u, rfl, hu, huv, -⟩
        · exact .inr ⟨owner, rfl, Nat.le_refl _, by omega⟩
        · exact .inr ⟨u, rfl, by omega, huv⟩
      · obtain ⟨-, x, hx, rfl⟩ := honly.enters_plain_iff.mp hb
        have := (Strands.bounds hs).2.2 x hx
        exact .inr ⟨x, rfl, by omega⟩

/-- What enters strands side by side is a head, or comes from a node that is no exit. -/
theorem Strands.entered {a : Place} {first next k : Nat} {heads : List (Nat × Option Condition)}
    {exits : List Nat} : Strands enters role a first next heads exits k →
      ∀ b c v, first ≤ v → v < next → enters b c v →
        b = a ∧ (v, c) ∈ heads ∨ ∃ u, b = .node u ∧ first ≤ u ∧ u < v ∧ u ∉ exits
  | .none _ _ => fun b c v hfirst hnext => by omega
  | @Strands.more _ _ _ head exit _ _ _ _ _ _ hhead hs hmore => fun b c v hfirst hnext hb => by
    have hlt := Strand.first_le hs
    have hrest : ∀ u, u < exit → u ∉ exit :: _ := fun u hu hmem => by
      rcases List.mem_cons.mp hmem with rfl | hmem
      · omega
      · have := (Strands.bounds hmore).2.2 u hmem
        omega
    by_cases hv : v = head
    · subst hv
      obtain ⟨rfl, rfl⟩ := hhead.eq_of_enters hb
      exact .inl ⟨rfl, List.mem_cons_self⟩
    · by_cases hexit : v ≤ exit
      · rcases Strand.entered hs b c v (by omega) hexit hb with ⟨rfl, -⟩ | ⟨u, rfl, hu, huv⟩
        · exact .inr ⟨head, rfl, Nat.le_refl _, by omega, hrest _ (by omega)⟩
        · exact .inr ⟨u, rfl, by omega, huv, hrest _ (by omega)⟩
      · rcases Strands.entered hmore b c v (by omega) hnext hb with ⟨rfl, hh⟩ | ⟨u, rfl, hu, huv, hx⟩
        · exact .inl ⟨rfl, List.mem_cons_of_mem _ hh⟩
        · refine .inr ⟨u, rfl, by omega, huv, fun hmem => ?_⟩
          rcases List.mem_cons.mp hmem with rfl | hmem
          · omega
          · exact hx hmem

end

/-- No place that lies before a strand leads into it, but for the one right before it. -/
theorem Strand.not_enters {a b : Place} {first exit k v : Nat} {c : Option Condition}
    (hs : Strand enters role a first exit k) (hb : b.rank ≤ first) (hne : b ≠ a)
    (hfirst : first ≤ v) (hexit : v ≤ exit) : ¬ enters b c v := by
  intro henters
  rcases hs.entered b c v hfirst hexit henters with ⟨rfl, -⟩ | ⟨u, rfl, hu, -⟩
  · exact hne rfl
  · exact absurd hb (Nat.not_le_of_lt (Nat.lt_succ_of_le hu))

theorem Strands.not_enters {a b : Place} {first next k v : Nat} {c : Option Condition}
    {heads : List (Nat × Option Condition)} {exits : List Nat}
    (hs : Strands enters role a first next heads exits k) (hb : b.rank ≤ first) (hne : b ≠ a)
    (hfirst : first ≤ v) (hnext : v < next) : ¬ enters b c v := by
  intro henters
  rcases hs.entered b c v hfirst hnext henters with ⟨rfl, -⟩ | ⟨u, rfl, hu, -⟩
  · exact hne rfl
  · exact absurd hb (Nat.not_le_of_lt (Nat.lt_succ_of_le hu))

/-! ## Edges out of the nodes of a strand -/

/-- An exit leads to what joins the strands. -/
theorem Inflow.Only.onward_join {first join : Nat} {exits : List Nat}
    (honly : enters.Only join (plainFrom exits))
    (hbefore : ∀ u, first ≤ u → u < join → u ∉ exits →
      ∃ c v, u < v ∧ v < join ∧ enters (.node u) c v)
    (u : Nat) (hu : first ≤ u) (hlt : u < join) :
    ∃ c v, u < v ∧ v ≤ join ∧ enters (.node u) c v := by
  by_cases hux : u ∈ exits
  · exact ⟨none, join, hlt, Nat.le_refl _, honly.enters_plain_iff.mpr ⟨rfl, u, hux, rfl⟩⟩
  · obtain ⟨c, v, huv, hv, hin⟩ := hbefore u hu hlt hux
    exact ⟨c, v, huv, Nat.le_of_lt hv, hin⟩

mutual

/-- The place before a strand leads into it, and so does each node before the exit. -/
theorem Strand.onward {a : Place} {first exit k : Nat} : Strand enters role a first exit k →
    (∃ v, first ≤ v ∧ v ≤ exit ∧ enters a none v) ∧
      ∀ u, first ≤ u → u < exit → ∃ c v, u < v ∧ v ≤ exit ∧ enters (.node u) c v
  | .step honly => ⟨⟨_, Nat.le_refl _, Nat.le_refl _, honly.enters_self⟩, fun u hu hlt => by omega⟩
  | @Strand.seq _ _ _ _ mid _ _ _ hs ht => by
    have hmid := Strand.first_le hs
    have hexit := Strand.first_le ht
    obtain ⟨⟨v, hfirst, hv, hin⟩, hbefore⟩ := Strand.onward hs
    obtain ⟨⟨v', hmid', hv', hin'⟩, hbehind⟩ := Strand.onward ht
    refine ⟨⟨v, hfirst, by omega, hin⟩, fun u hu hlt => ?_⟩
    rcases Nat.lt_trichotomy u mid with hum | rfl | hum
    · obtain ⟨c, z, huz, hz, hzin⟩ := hbefore u hu hum
      exact ⟨c, z, huz, by omega, hzin⟩
    · exact ⟨none, v', hmid', hv', hin'⟩
    · exact hbehind u hum hlt
  | .fork hs htwo hplain honly => by
    refine ⟨?_, fun u hu hlt => ?_⟩
    · obtain ⟨h, hh⟩ := List.exists_mem_of_length_pos (Nat.lt_of_succ_le (Nat.le_of_succ_le htwo))
      have hbounds := (Strands.bounds hs).2.1 h hh
      exact ⟨h.1, hbounds.1, Nat.le_of_lt hbounds.2,
        hplain h hh ▸ (Strands.only_head hs h hh).enters_self⟩
    · exact honly.onward_join (Strands.onward hs) u hu hlt
  | @Strand.decision _ _ _ owner _ _ _ _ hhead hs hdefault honly => by
    have hle := (Strands.bounds hs).1
    refine ⟨⟨owner, Nat.le_refl _, by omega, hhead.enters_self⟩, fun u hu hlt => ?_⟩
    rcases Nat.lt_or_eq_of_le hu with hu | rfl
    · exact honly.onward_join (Strands.onward hs) u hu hlt
    · obtain ⟨h, hh, -⟩ := hdefault
      have hbounds := (Strands.bounds hs).2.1 h hh
      exact ⟨h.2, h.1, hbounds.1, Nat.le_of_lt hbounds.2, (Strands.only_head hs h hh).enters_self⟩

theorem Strands.onward {a : Place} {first next k : Nat} {heads : List (Nat × Option Condition)}
    {exits : List Nat} : Strands enters role a first next heads exits k →
      ∀ u, first ≤ u → u < next → u ∉ exits → ∃ c v, u < v ∧ v < next ∧ enters (.node u) c v
  | .none _ _ => fun u hu hlt => by omega
  | @Strands.more _ _ _ head exit _ _ _ _ _ _ _ hs hmore => fun u hu hlt hux => by
    have hexit := Strand.first_le hs
    have hnext := (Strands.bounds hmore).1
    rw [List.mem_cons, not_or] at hux
    obtain ⟨⟨v, hfirst, hv, hin⟩, hwithin⟩ := Strand.onward hs
    rcases Nat.lt_trichotomy u exit with hue | rfl | hue
    · rcases Nat.lt_or_eq_of_le hu with hu | rfl
      · obtain ⟨c, z, huz, hz, hzin⟩ := hwithin u hu hue
        exact ⟨c, z, huz, by omega, hzin⟩
      · exact ⟨none, v, hfirst, by omega, hin⟩
    · exact absurd rfl hux.1
    · exact Strands.onward hmore u hue hlt hux.2

end

/-! ## Closed strands -/

/-- All edges out of the place and out of the nodes before the exit lie within the stretch. -/
structure Inflow.Closed (enters : Inflow) (a : Place) (first exit : Nat) : Prop where
  before : a.rank ≤ first
  entry : ∀ c v, enters a c v → first ≤ v ∧ v ≤ exit
  inner : ∀ u, first ≤ u → u < exit → ∀ c v, enters (.node u) c v → v ≤ exit

/-- All edges out of the nodes lie within the stretch, but that the exits lead to the join. -/
structure Inflow.Joined (enters : Inflow) (a : Place) (first next join : Nat)
    (exits : List Nat) : Prop where
  before : a.rank ≤ first
  inner : ∀ u, first ≤ u → u < next → u ∉ exits → ∀ c v, enters (.node u) c v → v < next
  exit : ∀ x ∈ exits, ∀ c v, enters (.node x) c v → c = none ∧ v = join

theorem Place.node_ne_of_rank_le {a : Place} {u : Nat} (h : a.rank ≤ u) : a ≠ .node u := by
  rintro rfl
  exact Nat.not_succ_le_self u h

namespace Inflow.Closed

variable {a : Place} {first mid exit j k : Nat}

/-- The edges out of the place before a closed strand are plain. -/
theorem plain (h : enters.Closed a first exit) (hs : Strand enters role a first exit k)
    {c : Option Condition} {v : Nat} (hv : enters a c v) : c = none := by
  obtain ⟨hfirst, hexit⟩ := h.entry c v hv
  rcases hs.entered a c v hfirst hexit hv with ⟨-, hc⟩ | ⟨u, rfl, hu, -⟩
  · exact hc
  · exact absurd h.before (Nat.not_le_of_lt (Nat.lt_succ_of_le hu))

theorem left (h : enters.Closed a first exit) (hs : Strand enters role a first mid j)
    (ht : Strand enters role (.node mid) (mid + 1) exit k) : enters.Closed a first mid := by
  have hmid := hs.first_le
  have hexit := ht.first_le
  refine ⟨h.before, fun c v hv => ?_, fun u hu hlt c v hv => ?_⟩
  · obtain ⟨hfirst, hle⟩ := h.entry c v hv
    refine ⟨hfirst, Nat.le_of_not_lt fun hmv => ?_⟩
    have hbefore := h.before
    exact ht.not_enters (by omega) (Place.node_ne_of_rank_le (Nat.le_trans hbefore hmid)) hmv hle hv
  · refine Nat.le_of_not_lt fun hmv => ?_
    have hle := h.inner u hu (by omega) c v hv
    exact ht.not_enters (b := .node u) (Nat.succ_le_succ (Nat.le_of_lt hlt))
      (Place.node_ne_of_rank_le hlt) hmv hle hv

theorem right (hforward : enters.Forward) (h : enters.Closed a first exit)
    (hs : Strand enters role a first mid j)
    (ht : Strand enters role (.node mid) (mid + 1) exit k) :
    enters.Closed (.node mid) (mid + 1) exit := by
  have hmid := hs.first_le
  have hexit := ht.first_le
  exact ⟨Nat.le_refl _, fun c v hv => ⟨hforward _ c v hv, h.inner mid hmid hexit c v hv⟩,
    fun u hu => h.inner u (by omega)⟩

/-- Of a decision, the place before it leads to the owner alone. -/
theorem eq_owner {owner join : Nat} {heads : List (Nat × Option Condition)} {exits : List Nat}
    (h : enters.Closed a owner join)
    (hs : Strands enters role (.node owner) (owner + 1) join heads exits k)
    (honly : enters.Only join (plainFrom exits)) {c : Option Condition} {v : Nat}
    (hv : enters a c v) : v = owner := by
  obtain ⟨hfirst, hexit⟩ := h.entry c v hv
  by_contra hne
  have hbefore := h.before
  rcases Nat.lt_or_eq_of_le hexit with hv' | rfl
  · exact hs.not_enters (Nat.le_succ_of_le hbefore) (Place.node_ne_of_rank_le hbefore)
      (by omega) hv' hv
  · obtain ⟨-, x, hx, rfl⟩ := honly.enters_plain_iff.mp hv
    have hx' : owner + 1 ≤ x := (hs.bounds.2.2 x hx).1
    have hlt : x + 1 ≤ owner := hbefore
    omega

end Inflow.Closed

namespace Inflow.Joined

variable {a : Place} {head first exit next join j k : Nat} {heads : List (Nat × Option Condition)}
  {exits : List Nat}

/-- The strands of a closed strand, which the last node joins. -/
theorem of_inner (hbefore : a.rank ≤ first)
    (hinner : ∀ u, first ≤ u → u < join → ∀ c v, enters (.node u) c v → v ≤ join)
    (hforward : enters.Forward)
    (hs : Strands enters role a first join heads exits k)
    (honly : enters.Only join (plainFrom exits)) : enters.Joined a first join join exits := by
  refine ⟨hbefore, fun u hu hlt hux c v hv => ?_, fun x hx c v hv => ?_⟩
  · refine Nat.lt_of_le_of_ne (hinner u hu hlt c v hv) ?_
    rintro rfl
    obtain ⟨-, x, hx, heq⟩ := honly.enters_plain_iff.mp hv
    exact hux (Place.node.inj heq ▸ hx)
  · obtain ⟨hfirst, hlt⟩ := hs.bounds.2.2 x hx
    have hxv : x < v := hforward _ c v hv
    rcases Nat.lt_or_eq_of_le (hinner x hfirst hlt c v hv) with hv' | rfl
    · rcases hs.entered _ c v (by omega) hv' hv with ⟨rfl, -⟩ | ⟨u, heq, -, -, hu⟩
      · exact absurd hbefore (Nat.not_le_of_lt (Nat.lt_succ_of_le hfirst))
      · exact absurd hx (Place.node.inj heq ▸ hu)
    · exact ⟨(honly.enters_plain_iff.mp hv).1, rfl⟩

variable (h : enters.Joined a head next join (exit :: exits))
  (hs : Strand enters role (.node head) (head + 1) exit j)
include h hs

theorem rest : enters.Joined a (exit + 1) next join exits := by
  have hexit := hs.first_le
  have hbefore := h.before
  refine ⟨by omega, fun u hu hlt hux => h.inner u (by omega) hlt ?_,
    fun x hx => h.exit x (List.mem_cons_of_mem _ hx)⟩
  rw [List.mem_cons, not_or]
  exact ⟨Nat.ne_of_gt hu, hux⟩

/-- The first one of the strands is closed. -/
theorem closed (hmore : Strands enters role a (exit + 1) next heads exits k)
    (hforward : enters.Forward) :
    enters.Closed (.node head) (head + 1) exit := by
  have hexit := hs.first_le
  have hbefore := h.before
  have hinner : ∀ u, head ≤ u → u < exit → ∀ c v, enters (.node u) c v → v ≤ exit := by
    intro u hu hlt c v hv
    refine Nat.le_of_not_lt fun hev => ?_
    have hux : u ∉ exit :: exits := fun hmem => by
      rcases List.mem_cons.mp hmem with rfl | hmem
      · exact Nat.lt_irrefl _ hlt
      · have := hmore.bounds.2.2 u hmem
        omega
    have hnext := h.inner u hu (Nat.lt_of_lt_of_le (Nat.lt_succ_of_lt hlt) hmore.bounds.1) hux c v hv
    exact hmore.not_enters (b := .node u) (Nat.succ_le_succ (Nat.le_of_lt hlt))
      (Place.node_ne_of_rank_le (Nat.le_trans hbefore hu)).symm hev hnext hv
  exact ⟨Nat.le_refl _,
    fun c v hv => ⟨hforward _ c v hv, hinner head (Nat.le_refl _) hexit c v hv⟩,
    fun u hu => hinner u (Nat.le_of_succ_le hu)⟩

end Inflow.Joined

/-! ## More nodes -/

mutual

/-- A strand stays a strand when the edges into its nodes stay the same. -/
theorem Strand.mono {enters' : Inflow} (hsame : ∀ b c v, enters b c v →
      ∀ b' c', enters' b' c' v ↔ enters b' c' v) {a : Place} {first exit k : Nat} :
    Strand enters role a first exit k → Strand enters' role a first exit k
  | .step honly => .step (honly.mono hsame)
  | .seq hs ht => .seq (Strand.mono hsame hs) (Strand.mono hsame ht)
  | .fork hs htwo hplain honly =>
    .fork (Strands.mono hsame hs) htwo hplain (honly.mono hsame)
  | .decision hhead hs hdefault honly =>
    .decision (hhead.mono hsame) (Strands.mono hsame hs) hdefault (honly.mono hsame)

theorem Strands.mono {enters' : Inflow} (hsame : ∀ b c v, enters b c v →
      ∀ b' c', enters' b' c' v ↔ enters b' c' v) {a : Place} {first next k : Nat}
    {heads : List (Nat × Option Condition)} {exits : List Nat} :
    Strands enters role a first next heads exits k →
      Strands enters' role a first next heads exits k
  | .none _ _ => .none _ _
  | .more hhead hs hmore =>
    .more (hhead.mono hsame) (Strand.mono hsame hs) (Strands.mono hsame hmore)

end

end BatchFlow

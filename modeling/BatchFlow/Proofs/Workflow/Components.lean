import BatchFlow.Proofs.Workflow.Order
import BatchFlow.Proofs.Workflow.Searching

/-!
# Workflows as copies

A workflow is built from a dag by copying the nodes that are connected to its entries. The copy
gives them the numbers from zero on in their old order and keeps every edge, because a node that is
collected brings its neighbours along.

Building fails for two reasons only: an entry that is not in the dag, or a name that occurs twice
among the collected nodes. A search for the nodes, breadth first and from one entry after the other,
makes the same workflow and fails for the same reasons.
-/

namespace BatchFlow

/-- The node under new ids, with every edge kept in its place. -/
def Node.moved (place : NodeId → NodeId) (n : Node) : Node :=
  let moveBranch (b : Branch) : Branch := ⟨place b.node, b.condition⟩
  { n with
    id := place n.id
    plainParents := n.plainParents.map place
    conditionalParents := n.conditionalParents.map moveBranch
    plainChildren := n.plainChildren.map place
    conditionalChildren := n.conditionalChildren.map moveBranch }

namespace Dag

/-- The node is connected to an entry. -/
def Collects (d : Dag) (entries : List NodeId) (a : NodeId) : Prop :=
  a < d.size ∧ ∃ e ∈ entries, d.Connected e a

/-- The node is collected, and so is an earlier one of the same name. -/
def Repeats (d : Dag) (entries : List NodeId) (b : NodeId) : Prop :=
  d.Collects entries b ∧ ∃ a, a < b ∧ d.Collects entries a ∧
    ∃ n m, d.get? a = some n ∧ d.get? b = some m ∧ n.name = m.name

/-- Why no workflow of a name can be built from some entries: the first entry that is not in the
dag, or else the first node whose name occurred before. -/
inductive Refuses (d : Dag) (entries : List NodeId) (workflow : String) : BuildError → Prop
  | unknown {before after : List NodeId} {x : NodeId} : entries = before ++ x :: after →
      (∀ y ∈ before, y < d.size) → d.size ≤ x → Refuses d entries workflow (.unknownNode x)
  | repeated {b : NodeId} {m : Node} : (∀ x ∈ entries, x < d.size) → d.get? b = some m →
      d.Repeats entries b → (∀ a < b, ¬ d.Repeats entries a) →
      Refuses d entries workflow (.duplicateName m.name workflow)

end Dag

/-- The workflow holds the nodes that are connected to the entries, each in its new place. -/
structure Workflow.Copies (w : Workflow) (d : Dag) (entries : List NodeId)
    (place : NodeId → NodeId) : Prop where
  increasing : ∀ a b, d.Collects entries a → d.Collects entries b → a < b → place a < place b
  lt_size : ∀ a, d.Collects entries a → place a < w.size
  onto : ∀ i < w.size, ∃ a, d.Collects entries a ∧ place a = i
  node?_eq : ∀ a n, d.Collects entries a → d.get? a = some n →
    w.node? (place a) = some (n.moved place)
  roots_sorted : w.roots.Pairwise (· < ·)
  mem_roots_iff : ∀ r, r ∈ w.roots ↔
    ∃ m, w.node? r = some m ∧ m.plainParents = [] ∧ m.conditionalParents = []

/-! ## Places in an increasing list -/

section places

variable {ids : List Nat}

theorem filterMap_eq_map_of_some {α β : Type} {f : α → Option β} {g : α → β} {l : List α}
    (h : ∀ x ∈ l, f x = some (g x)) : l.filterMap f = l.map g := by
  rw [List.filterMap_congr h]
  exact congrFun List.filterMap_eq_map l

theorem idxOf?_eq_some_of_mem (h : ids.Nodup) {a : Nat} (ha : a ∈ ids) :
    ids.idxOf? a = some (ids.idxOf a) := by
  rw [idxOf?_eq_some_of_nodup h, List.getElem?_eq_getElem (List.idxOf_lt_length_of_mem ha),
    List.getElem_idxOf]

theorem lt_iff_of_sorted (h : ids.Pairwise (· < ·)) {j k a b : Nat} (ha : ids[j]? = some a)
    (hb : ids[k]? = some b) : j < k ↔ a < b := by
  have hnodup : ids.Nodup := h.imp Nat.ne_of_lt
  have ho := ordered_idxOf? h
  have hja := (idxOf?_eq_some_of_nodup hnodup).mpr ha
  have hkb := (idxOf?_eq_some_of_nodup hnodup).mpr hb
  refine ⟨fun hjk => ?_, fun hab => ho a b j k hja hkb hab⟩
  rcases Nat.lt_trichotomy a b with hlt | rfl | hlt
  · exact hlt
  · have := Option.some.inj (hja.symm.trans hkb)
    omega
  · have := ho b a k j hkb hja hlt
    omega

end places

namespace Dag

variable {d : Dag} {entries : List NodeId}

/-! ## Names that occur twice -/

/-- The node's name was seen before the list or occurs earlier in it. -/
def RepeatedAt (seen : List String) (ns : List Node) (k : Nat) : Prop :=
  ∃ m, ns[k]? = some m ∧ (m.name ∈ seen ∨ ∃ j n, j < k ∧ ns[j]? = some n ∧ n.name = m.name)

theorem repeatedAt_zero {seen : List String} {n : Node} {rest : List Node} :
    RepeatedAt seen (n :: rest) 0 ↔ n.name ∈ seen := by
  simp [RepeatedAt]

theorem repeatedAt_succ {seen : List String} {n : Node} {rest : List Node} {k : Nat} :
    RepeatedAt seen (n :: rest) (k + 1) ↔ RepeatedAt (n.name :: seen) rest k := by
  unfold RepeatedAt
  refine exists_congr fun m => and_congr_right fun _ => ?_
  rw [List.mem_cons, or_comm (a := m.name = n.name), or_assoc]
  refine or_congr_right ?_
  constructor
  · rintro ⟨j, x, hj, hx, hname⟩
    cases j with
    | zero => exact .inl (Option.some.inj hx ▸ hname.symm)
    | succ j => exact .inr ⟨j, x, Nat.lt_of_succ_lt_succ hj, hx, hname⟩
  · rintro (hname | ⟨j, x, hj, hx, hname⟩)
    · exact ⟨0, n, Nat.succ_pos k, rfl, hname.symm⟩
    · exact ⟨j + 1, x, Nat.succ_lt_succ hj, hx, hname⟩

theorem repeatedName?_go_eq_some_iff {seen : List String} {ns : List Node} {r : String} :
    repeatedName?.go seen ns = some r ↔ ∃ k m, ns[k]? = some m ∧ m.name = r ∧
      RepeatedAt seen ns k ∧ ∀ j < k, ¬ RepeatedAt seen ns j := by
  induction ns generalizing seen with
  | nil => simp [repeatedName?.go]
  | cons n rest ih =>
    by_cases hn : n.name ∈ seen
    · rw [repeatedName?.go, if_pos (List.contains_iff_mem.mpr hn)]
      constructor
      · intro hr
        exact ⟨0, n, rfl, Option.some.inj hr, repeatedAt_zero.mpr hn, fun j hj => by cases hj⟩
      · rintro ⟨k, m, hm, rfl, -, hfirst⟩
        cases k with
        | zero => rw [Option.some.inj hm]
        | succ k => exact absurd (repeatedAt_zero.mpr hn) (hfirst 0 (Nat.succ_pos k))
    · rw [repeatedName?.go, if_neg (fun h => hn (List.contains_iff_mem.mp h)), ih]
      constructor
      · rintro ⟨k, m, hm, hr, hk, hfirst⟩
        refine ⟨k + 1, m, hm, hr, repeatedAt_succ.mpr hk, fun j hj => ?_⟩
        cases j with
        | zero => exact fun h => hn (repeatedAt_zero.mp h)
        | succ j => exact fun h => hfirst j (Nat.lt_of_succ_lt_succ hj) (repeatedAt_succ.mp h)
      · rintro ⟨k, m, hm, hr, hk, hfirst⟩
        cases k with
        | zero => exact absurd (repeatedAt_zero.mp hk) hn
        | succ k =>
          exact ⟨k, m, hm, hr, repeatedAt_succ.mp hk,
            fun j hj h => hfirst (j + 1) (Nat.succ_lt_succ hj) (repeatedAt_succ.mpr h)⟩

theorem repeatedAt_nil_iff {ns : List Node} {k : Nat} : RepeatedAt [] ns k ↔
    ∃ m, ns[k]? = some m ∧ ∃ j n, j < k ∧ ns[j]? = some n ∧ n.name = m.name := by
  simp [RepeatedAt]

/-! ## The part of a dag that a workflow copies -/

namespace Sound

variable (h : d.Sound)
include h

theorem collects_iff {a : Nat} : d.Collects entries a ↔ a ∈ d.connected entries :=
  h.mem_connected_iff.symm

theorem collects_of_adjacent {a b : Nat} (ha : d.Collects entries a) (hab : d.Adjacent a b) :
    d.Collects entries b := by
  obtain ⟨_, e, he, hea⟩ := ha
  exact ⟨h.lt_of_adjacent hab, e, he, hea.tail hab⟩

/-- A collected node loses no edge. -/
theorem renumber_eq_moved {a : Nat} {n : Node} (ha : d.Collects entries a)
    (hn : d.get? a = some n) :
    n.renumber (d.connected entries).idxOf? ((d.connected entries).idxOf a) =
      n.moved (d.connected entries).idxOf := by
  have hnodup : (d.connected entries).Nodup := (d.connected_sorted entries).imp Nat.ne_of_lt
  have hmem : ∀ b, b ∈ n.parents ∨ b ∈ n.children →
      (d.connected entries).idxOf? b = some ((d.connected entries).idxOf b) := fun b hb =>
    idxOf?_eq_some_of_mem hnodup (h.collects_iff.mp (h.collects_of_adjacent ha ⟨n, hn, hb⟩))
  have hplain : ∀ l : List NodeId, (∀ b ∈ l, b ∈ n.parents ∨ b ∈ n.children) →
      l.filterMap (d.connected entries).idxOf? = l.map (d.connected entries).idxOf := fun l hl =>
    filterMap_eq_map_of_some fun b hb => hmem b (hl b hb)
  have hbranch : ∀ l : List Branch, (∀ b ∈ l, b.node ∈ n.parents ∨ b.node ∈ n.children) →
      (l.filterMap fun b => ((d.connected entries).idxOf? b.node).map
        fun i => (⟨i, b.condition⟩ : Branch)) =
      l.map fun b => ⟨(d.connected entries).idxOf b.node, b.condition⟩ := fun l hl =>
    filterMap_eq_map_of_some fun b hb => by rw [hmem b.node (hl b hb), Option.map_some]
  simp only [Node.renumber, Node.moved]
  rw [h.id_eq a n hn, hplain n.plainParents, hplain n.plainChildren, hbranch n.conditionalParents,
    hbranch n.conditionalChildren]
  · exact fun b hb => .inr (List.mem_append_right _ (List.mem_map_of_mem hb))
  · exact fun b hb => .inl (List.mem_append_right _ (List.mem_map_of_mem hb))
  · exact fun b hb => .inr (List.mem_append_left _ hb)
  · exact fun b hb => .inl (List.mem_append_left _ hb)

/-- A node of the copy, and the place it came from. -/
theorem get?_copy_iff {k : Nat} {m : Node} :
    (d.subset (d.connected entries)).get? k = some m ↔ ∃ a n, (d.connected entries)[k]? = some a ∧
      d.get? a = some n ∧ m = n.moved (d.connected entries).idxOf := by
  rw [get?_subset lt_of_mem_connected]
  refine exists_congr fun a => exists_congr fun n => and_congr_right fun ha =>
    and_congr_right fun hn => ?_
  have hnodup : (d.connected entries).Nodup := (d.connected_sorted entries).imp Nat.ne_of_lt
  have hmem : a ∈ d.connected entries := List.mem_of_getElem? ha
  have hk : (d.connected entries).idxOf a = k :=
    Option.some.inj ((idxOf?_eq_some_of_mem hnodup hmem).symm.trans
      ((idxOf?_eq_some_of_nodup hnodup).mpr ha))
  rw [← h.renumber_eq_moved (h.collects_iff.mpr hmem) hn, hk]

theorem repeatedAt_copy_iff {k : Nat} :
    RepeatedAt [] (d.subset (d.connected entries)).nodes k ↔
      ∃ b, (d.connected entries)[k]? = some b ∧ d.Repeats entries b := by
  have hsorted := d.connected_sorted entries
  rw [repeatedAt_nil_iff]
  constructor
  · rintro ⟨m, hm, j, n, hjk, hn, hname⟩
    obtain ⟨b, m₀, hb, hm₀, rfl⟩ := h.get?_copy_iff.mp hm
    obtain ⟨a, n₀, ha, hn₀, rfl⟩ := h.get?_copy_iff.mp hn
    exact ⟨b, hb, h.collects_iff.mpr (List.mem_of_getElem? hb), a,
      (lt_iff_of_sorted hsorted ha hb).mp hjk, h.collects_iff.mpr (List.mem_of_getElem? ha), n₀, m₀,
      hn₀, hm₀, hname⟩
  · rintro ⟨b, hb, -, a, hab, hcollects, n, m, hn, hm, hname⟩
    obtain ⟨j, ha⟩ := List.getElem?_of_mem (h.collects_iff.mp hcollects)
    exact ⟨_, h.get?_copy_iff.mpr ⟨b, m, hb, hm, rfl⟩, j, _,
      (lt_iff_of_sorted hsorted ha hb).mpr hab, h.get?_copy_iff.mpr ⟨a, n, ha, hn, rfl⟩, hname⟩

/-- The name that is found to occur twice is that of the first node whose name occurred before. -/
theorem repeatedName?_copy_eq_some_iff {r : String} :
    (d.subset (d.connected entries)).repeatedName? = some r ↔ ∃ b m, d.get? b = some m ∧
      m.name = r ∧ d.Repeats entries b ∧ ∀ a < b, ¬ d.Repeats entries a := by
  have hsorted := d.connected_sorted entries
  refine repeatedName?_go_eq_some_iff.trans ?_
  simp only [h.repeatedAt_copy_iff]
  constructor
  · rintro ⟨k, m, hm, hr, ⟨b, hb, hrep⟩, hfirst⟩
    obtain ⟨b', m₀, hb', hm₀, rfl⟩ := h.get?_copy_iff.mp hm
    obtain rfl : b' = b := Option.some.inj (hb'.symm.trans hb)
    refine ⟨b', m₀, hm₀, hr, hrep, fun a hab ha => ?_⟩
    obtain ⟨j, hj⟩ := List.getElem?_of_mem (h.collects_iff.mp ha.1)
    exact hfirst j ((lt_iff_of_sorted hsorted hj hb).mpr hab) ⟨a, hj, ha⟩
  · rintro ⟨b, m, hm, hr, hrep, hfirst⟩
    obtain ⟨k, hk⟩ := List.getElem?_of_mem (h.collects_iff.mp hrep.1)
    refine ⟨k, _, h.get?_copy_iff.mpr ⟨b, m, hk, hm, rfl⟩, hr, ⟨b, hk, hrep⟩, ?_⟩
    rintro j hjk ⟨a, ha, harep⟩
    exact hfirst a ((lt_iff_of_sorted hsorted ha hk).mp hjk) harep

end Sound

/-- Collecting looks at which entries there are, not at their order or number. -/
theorem connected_congr {entries' : List NodeId} (h : ∀ x, x ∈ entries' ↔ x ∈ entries) :
    d.connected entries' = d.connected entries := by
  unfold connected
  refine List.filter_congr fun a _ => ?_
  cases d.labels[a]? with
  | none => rfl
  | some l =>
    rw [Bool.eq_iff_iff]
    simp only [List.contains_iff_mem, List.mem_filterMap, h]

end Dag

/-! ## Building -/

namespace Workflow.Draft

variable {draft : Draft} {d : Dag} {name : String} {w : Workflow} {e : BuildError}

/-- The two reasons to refuse, as building comes upon them. -/
theorem refuses_iff (h : d.Sound) {entries : List NodeId} : d.Refuses entries name e ↔
    (∃ x, entries.find? (d.size ≤ ·) = some x ∧ e = .unknownNode x) ∨
      entries.find? (d.size ≤ ·) = none ∧
        ∃ r, (d.subset (d.connected entries)).repeatedName? = some r ∧ e = .duplicateName r name := by
  have hknown : entries.find? (d.size ≤ ·) = none ↔ ∀ x ∈ entries, x < d.size := by
    simp [List.find?_eq_none]
  constructor
  · rintro (@⟨before, after, x, hsplit, hbefore, hx⟩ | @⟨b, m, hall, hm, hrep, hfirst⟩)
    · have hfirst : ∀ y ∈ before, (!decide (d.size ≤ y)) = true := fun y hy => by
        simpa using hbefore y hy
      exact .inl ⟨x, List.find?_eq_some_iff_append.mpr
        ⟨by simpa using hx, before, after, hsplit, hfirst⟩, rfl⟩
    · exact .inr ⟨hknown.mpr hall, m.name,
        h.repeatedName?_copy_eq_some_iff.mpr ⟨b, m, hm, rfl, hrep, hfirst⟩, rfl⟩
  · rintro (⟨x, hx, rfl⟩ | ⟨hall, r, hr, rfl⟩)
    · obtain ⟨hge, before, after, hsplit, hbefore⟩ := List.find?_eq_some_iff_append.mp hx
      refine .unknown hsplit (fun y hy => ?_) (by simpa using hge)
      simpa using hbefore y hy
    · obtain ⟨b, m, hm, rfl, hrep, hfirst⟩ := h.repeatedName?_copy_eq_some_iff.mp hr
      exact .repeated (hknown.mp hall) hm hrep hfirst

theorem build_eq_error_iff (h : d.Sound) (hname : draft.name.value = some name) :
    draft.build d = .error e ↔ d.Refuses draft.entries name e := by
  rw [build_eq d hname, refuses_iff h]
  cases draft.entries.find? (d.size ≤ ·) with
  | some x => simp [@eq_comm _ e]
  | none =>
    cases (d.subset (d.connected draft.entries)).repeatedName? with
    | some r => simp [@eq_comm _ e]
    | none => simp

theorem copies_of_build (h : d.Sound) (hname : draft.name.value = some name)
    (hb : draft.build d = .ok w) :
    w.Copies d draft.entries (d.connected draft.entries).idxOf := by
  have hsorted := d.connected_sorted draft.entries
  have hplace : ∀ a, d.Collects draft.entries a →
      (d.connected draft.entries)[(d.connected draft.entries).idxOf a]? = some a := fun a ha =>
    List.getElem?_idxOf (h.collects_iff.mp ha)
  have hw : w.Sound := sound_of_build h hb
  have hdag : w.dag = d.subset (d.connected draft.entries) := by
    rw [((build_eq_ok_iff hname).mp hb).2.2]
    rfl
  have hsize : w.size = (d.connected draft.entries).length := by
    rw [size, hdag, Dag.size_subset Dag.lt_of_mem_connected]
  constructor
  case increasing =>
    intro a b ha hb hab
    exact (lt_iff_of_sorted hsorted (hplace a ha) (hplace b hb)).mpr hab
  case lt_size =>
    intro a ha
    rw [hsize]
    exact (List.getElem?_eq_some_iff.mp (hplace a ha)).1
  case onto =>
    intro i hi
    have hi' := List.getElem?_eq_getElem (hsize ▸ hi)
    refine ⟨_, h.collects_iff.mpr (List.mem_of_getElem? hi'), ?_⟩
    exact List.Nodup.idxOf_getElem (hsorted.imp Nat.ne_of_lt) _ _
  case node?_eq =>
    intro a n ha hn
    rw [node?, hdag]
    exact h.get?_copy_iff.mpr ⟨a, n, hplace a ha, hn, rfl⟩
  case roots_sorted => exact hw.roots_sorted
  case mem_roots_iff =>
    intro r
    simp only [hw.mem_roots_iff, Node.parents, List.append_eq_nil_iff, List.map_eq_nil_iff]

/-- The order and the number of the entries do not matter. -/
theorem build_congr (hname : draft.name.value = some name) (hb : draft.build d = .ok w)
    {entries : List NodeId} (hentries : ∀ x, x ∈ entries ↔ x ∈ draft.entries) :
    ({ draft with entries } : Draft).build d = .ok w := by
  obtain ⟨hknown, hnames, rfl⟩ := (build_eq_ok_iff hname).mp hb
  have hcongr := Dag.connected_congr (d := d) hentries
  have hname' : ({ draft with entries } : Draft).name.value = some name := hname
  refine (build_eq_ok_iff hname').mpr ⟨?_, ?_, ?_⟩
  · rw [List.find?_eq_none] at hknown ⊢
    exact fun x hx => hknown x ((hentries x).mp hx)
  · rwa [hcongr]
  · rw [made, made, hcongr]

end Workflow.Draft

/-- A named draft builds an exact copy of what its entries are connected to, or it is refused for
one of the two reasons. It builds what a search for the nodes builds. -/
theorem Dag.Filled.builds_components {d : Dag} (h : d.Filled) {draft : Workflow.Draft}
    {name : String} (hname : draft.name.value = some name) :
    (∀ w, draft.build d = .ok w →
      (∃ place, w.Copies d draft.entries place) ∧
      ∀ entries, (∀ x, x ∈ entries ↔ x ∈ draft.entries) →
        ({ draft with entries } : Workflow.Draft).build d = .ok w) ∧
    (∀ e, draft.build d = .error e ↔ d.Refuses draft.entries name e) ∧
    ∀ answer, draft.Searches d answer ↔ answer = draft.build d := by
  have hsound : d.Sound := h.reached.sound
  refine ⟨fun w hw => ⟨?_, ?_⟩, fun e => Workflow.Draft.build_eq_error_iff hsound hname,
    fun answer => Workflow.Draft.searches_iff hsound⟩
  · exact ⟨_, Workflow.Draft.copies_of_build hsound hname hw⟩
  · exact fun entries hentries => Workflow.Draft.build_congr hname hw hentries

/-! ### Two lines that share a name -/

namespace Script

/-- Two lines of nodes without an edge between them; a node of the second has the name of one of the
first. -/
def lines : Script :=
  [plainNode "load" [], plainNode "check" [], plainNode "clean" [(0, none)],
    plainNode "report" [(1, none)], plainNode "clean" [(3, some .otherwise)]]

end Script

def Dag.lines : Dag :=
  match Script.lines.dag with
  | .ok d => d
  | .error _ => {}

theorem Dag.lines_filled : lines.Filled :=
  Artifact.Reached.filled (Script.reached_foldlM_grow (s := .lines) .empty rfl)

def Workflow.Draft.second : Workflow.Draft := { name := .ofDefault "second", entries := [4, 1, 4] }

/-- One line makes a workflow, from whichever of its nodes, and a search makes it too; both together
repeat a name. -/
theorem Dag.lines_components :
    lines.Filled ∧ Workflow.Draft.second.name.value = some "second" ∧
    (∃ w place, Workflow.Draft.second.build lines = .ok w ∧ w.Copies lines [4, 1, 4] place ∧
      { Workflow.Draft.second with entries := [1, 4] }.build lines = .ok w ∧
      Workflow.Draft.second.Searches lines (.ok w)) ∧
    lines.Refuses [4, 2] "second" (.duplicateName "clean" "second") ∧
    lines.Refuses [4, 9, 7] "second" (.unknownNode 9) := by
  have hname : Workflow.Draft.second.name.value = some "second" := rfl
  have hall := lines_filled.builds_components hname
  have hentries : ∀ x : NodeId, x ∈ [1, 4] ↔ x ∈ Workflow.Draft.second.entries := by
    intro x
    simp only [Workflow.Draft.second, List.mem_cons, List.not_mem_nil, or_false]
    tauto
  have hmade : Workflow.Draft.second.build lines =
      .ok (Workflow.Draft.second.made lines "second") := rfl
  obtain ⟨⟨place, hcopies⟩, hcongr⟩ := hall.1 _ hmade
  have hsearches := (hall.2.2 _).mpr hmade.symm
  refine ⟨lines_filled, rfl, ⟨_, place, hmade, hcopies, hcongr [1, 4] hentries, hsearches⟩, ?_, ?_⟩
  · have hboth : { Workflow.Draft.second with entries := [4, 2] }.name.value = some "second" := rfl
    exact ((lines_filled.builds_components hboth).2.1 _).mp rfl
  · have hunknown : { Workflow.Draft.second with entries := [4, 9, 7] }.name.value =
        some "second" := rfl
    exact ((lines_filled.builds_components hunknown).2.1 _).mp rfl

end BatchFlow

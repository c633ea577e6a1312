import BatchFlow.Proofs.Lowering.Shape
import BatchFlow.Proofs.Outline.Stretches
import BatchFlow.Proofs.Region
import Mathlib.Data.Set.Lattice
import Mathlib.Order.CompletePartialOrder

/-!
# Blocks of lowered graphs

In a lowered graph every fork and every decision opens a block that the vertex with the next id
closes. The vertices between the two are the frame of the block: control comes in through the
opening and goes out through the closing. Within the frame each branch that has vertices is a region
of its own, entered from the opening and left into the closing. Frames are nested or apart, so
blocks are, also where the closing of one leads right into the closing of another.
-/

namespace BatchFlow

namespace Graph

/-- The vertices on paths from one vertex to another. -/
def between (g : Graph) (a b : VertexId) : Set VertexId := {z | ∃ p, Path g.Child a p b ∧ z ∈ p}

/-- Of the branch that begins at `head` and leads into `closing`, the vertex is the last one. -/
structure EndsBranch (g : Graph) (head closing u : VertexId) : Prop where
  mem : u ∈ g.between head closing
  ne : u ≠ closing
  last : ∀ z ∈ g.between head closing, z ≠ closing → Leads g.Child z u

/-- The vertex `x` with id `v` opens a block, and `y` with the next id closes it. -/
structure Block (g : Graph) (v : VertexId) (x y : Vertex) : Prop where
  join : x.role = .fork → y.role = .join
  decisionJoin : x.role = .decision → y.role = .decisionJoin
  entered : ∃ s, g.start = some s ∧ Through g.Child v s (v + 1)
  left : ∃ f, g.finish = some f ∧ Through g.Child (v + 1) v f
  length_eq : x.arcs.length = y.parents.length
  /-- A branch that begins at the closing has no vertices. -/
  branch : ∀ (i : Nat) (a : Arc) (u : VertexId), x.arcs[i]? = some a → y.parents[i]? = some u →
    if a.target = v + 1 then u = v else g.EndsBranch a.target (v + 1) u

theorem mem_between {g : Graph} {a b z : VertexId} :
    z ∈ g.between a b ↔ Leads g.Child a z ∧ Leads g.Child z b := by
  constructor
  · rintro ⟨p, hp, hz⟩
    obtain ⟨q, r, hq, hr, -⟩ := hp.split hz
    exact ⟨hq.leads, hr.leads⟩
  · rintro ⟨hfrom, hto⟩
    obtain ⟨p, hp⟩ := hfrom.exists_path
    obtain ⟨q, hq⟩ := hto.exists_path
    obtain ⟨r, hr, hmem⟩ := hp.append hq
    exact ⟨r, hr, (hmem z).mpr (.inl hp.last_mem)⟩

end Graph

/-! ## Frames of a graph -/

theorem Row.lies_allWires {r : Row} {f : Frame} (hf : f ∈ r.frames 2) : f.Lies r.allWires :=
  r.frame_lies Nat.two_pos (.inl Nat.one_lt_two) f hf

namespace Graph.Shows

variable {g : Graph} {r : Row} (h : g.Shows r) {f : Frame} (hf : f ∈ r.frames 2)
include h hf

/-- A frame is entered at its opening and left from its closing. -/
theorem region_frame : Region g.Child f.Holds f.opening (f.opening + 1) := by
  obtain ⟨q, t, hq, ht, hws⟩ := Row.lies_allWires hf
  have hpart : ∀ e ∈ r.allWires, f.Holds e.port.source ∨ f.Holds e.target → e ∈ f.wires q t :=
    fun _ => hws.mem_of_touch
  constructor
  · intro a b hchild ha hb
    obtain ⟨e, he, rfl, rfl⟩ := h.child_iff.mp hchild
    rcases (Frame.mem_wires (hpart e he (.inr hb))).1 with rfl | hsource
    · rfl
    · exact absurd hsource ha
  · intro a b hchild ha hb
    obtain ⟨e, he, rfl, rfl⟩ := h.child_iff.mp hchild
    rcases (Frame.mem_wires (hpart e he (.inl ha))).2 with rfl | htarget
    · rfl
    · exact absurd htarget hb

variable {i : Nat} {l : Lane} (hl : (f.arms.lanes (f.opening + 2))[i]? = some l)
include hl

/-- A lane is entered at its first vertex and left from its last one, into the closing. -/
theorem region_lane (hpos : 0 < l.row.size) :
    Region g.Child l.Holds l.first (l.last f.opening i) ∧
      ∀ a b, g.Child a b → l.Holds a → ¬ l.Holds b → b = f.opening + 1 := by
  obtain ⟨q, t, hq, ht, hws⟩ := Row.lies_allWires hf
  have hlt := f.arms.mem_lanes hl
  have hlane := hws.trans (Frame.lane_stretch hq ht hl) (by omega) (by rw [Frame.size]; omega)
  have hpart : ∀ e ∈ r.allWires, l.Holds e.port.source ∨ l.Holds e.target →
      e ∈ l.row.wiresTo ⟨f.opening, i, l.condition⟩ l.first (f.opening + 1) :=
    fun _ => hlane.mem_of_touch
  have hborder : ∀ a b, g.Child a b → l.Holds a → ¬ l.Holds b →
      a = l.last f.opening i ∧ b = f.opening + 1 := by
    intro a b hchild ha hb
    obtain ⟨e, he, rfl, rfl⟩ := h.child_iff.mp hchild
    rcases (Row.wiresTo_border (hpart e he (.inl ha))).2 with rfl | htarget
    · exact ⟨rfl, rfl⟩
    · exact absurd htarget hb
  refine ⟨⟨?_, fun a b hchild ha hb => (hborder a b hchild ha hb).1⟩,
    fun a b hchild ha hb => (hborder a b hchild ha hb).2⟩
  intro a b hchild ha hb
  obtain ⟨e, he, rfl, rfl⟩ := h.child_iff.mp hchild
  have hmem := hpart e he (.inr hb)
  rcases (Row.wiresTo_border hmem).1 with hsource | rfl
  · have hs : e.port.source = f.opening ∨ l.Holds e.port.source := (Row.mem_wiresTo e hmem).2
    rcases hs with hs | hs
    · omega
    · exact absurd hs ha
  · exact Row.head_of_size_pos hpos

end Graph.Shows

/-- Every opening of the graph is that of a frame. -/
theorem Graph.Shows.exists_frame {g : Graph} {r : Row} (h : g.Shows r) {v : VertexId} {x : Vertex}
    (hx : g.get? v = some x) (hopen : x.role.Opens) :
    ∃ f ∈ r.frames 2, f.opening = v ∧ f.role = x.role := by
  have hsite := (h.role_iff v x.role).mp ⟨x, hx, rfl⟩
  have hmem : (v, x.role) ∈ r.sites 2 := by
    rcases Row.mem_allSites.mp hsite with ⟨-, hrole⟩ | ⟨-, hrole⟩ | hmem | ⟨-, hrole⟩
    · rcases hopen with h' | h' <;> cases hrole.symm.trans h'
    · rcases hopen with h' | h' <;> cases hrole.symm.trans h'
    · exact hmem
    · rcases hopen with h' | h' <;> cases hrole.symm.trans h'
  exact r.exists_frame 2 v x.role hmem hopen

theorem Frame.subset_or_disjoint {f f' : Frame} (h : f.Before f') :
    {v | f'.Holds v} ⊂ {v | f.Holds v} ∨ Disjoint {v | f.Holds v} {v | f'.Holds v} := by
  unfold Before at h
  rcases h with h | h
  · left
    rw [Set.ssubset_iff_of_subset]
    · refine ⟨f.opening, f.holds_opening, ?_⟩
      simp only [Holds, Set.mem_ofPred_eq]
      omega
    · intro v hv
      simp only [Holds, Set.mem_ofPred_eq] at hv ⊢
      omega
  · right
    rw [Set.disjoint_left]
    intro v hv hv'
    simp only [Holds, Set.mem_ofPred_eq] at hv hv'
    omega

/-- The edges of a vertex are the wires at its site. -/
theorem Row.edges_of_get? {r : Row} {name : String} {taken : List String} {v : Nat} {x : Vertex}
    (hx : (r.graph name taken).get? v = some x) :
    x.arcs = (wiresFrom r.allWires v).map Wire.arc ∧
      x.parents = (wiresInto r.allWires v).map (·.port.source) := by
  rw [r.get?_graph] at hx
  obtain ⟨st, -, rfl⟩ := Option.map_eq_some_iff.mp hx
  exact ⟨rfl, rfl⟩

theorem Row.ends_outside {r : Row} {f : Frame} (hf : f ∈ r.frames 2) :
    ¬ f.Holds 0 ∧ ¬ f.Holds 1 := by
  have := r.mem_frames 2 f hf
  unfold Frame.Holds
  omega

namespace Row.Outlines

variable {w : Workflow} {r : Row} (hw : w.Sound) (ho : Row.Outlines w r) (name : String)
  (taken : List String) {f : Frame} (hf : f ∈ r.frames 2)
include hw ho hf

theorem leads_frame {v : Nat} (hv : f.Holds v) :
    Leads (r.graph name taken).Child 0 v ∧ Leads (r.graph name taken).Child v 1 := by
  have hlt := r.mem_frames 2 f hf
  refine ho.connected hw name taken ?_
  unfold Frame.Holds at hv
  omega

/-- What lies between the ends of a block is its frame. -/
theorem between_frame :
    (r.graph name taken).between f.opening (f.opening + 1) = {v | f.Holds v} := by
  have hregion := (r.shows_graph (ho.proper hw) name taken).region_frame hf
  obtain ⟨hstart, hfinish⟩ := Row.ends_outside hf
  ext v
  rw [Graph.mem_between, Set.mem_ofPred_eq]
  constructor
  · intro hv
    exact hregion.inside_of_between (fun a b => ho.position_of_child hw name taken)
      f.holds_opening f.holds_closing hv.1 hv.2
  · intro hv
    obtain ⟨hfrom, hto⟩ := ho.leads_frame hw name taken hf hv
    exact hregion.leads_of_inside hstart hfinish hv hfrom hto

/-- What lies in a lane lies between its first vertex and its last one. -/
theorem leads_lane {i : Nat} {l : Lane} (hl : (f.arms.lanes (f.opening + 2))[i]? = some l)
    (hpos : 0 < l.row.size) {v : Nat} (hv : l.Holds v) :
    Leads (r.graph name taken).Child l.first v ∧
      Leads (r.graph name taken).Child v (l.last f.opening i) := by
  obtain ⟨hregion, -⟩ := (r.shows_graph (ho.proper hw) name taken).region_lane hf hl hpos
  obtain ⟨hstart, hfinish⟩ := Row.ends_outside hf
  obtain ⟨hfrom, hto⟩ := ho.leads_frame hw name taken hf (Frame.holds_of_lane hl hv)
  exact hregion.leads_of_inside (mt (Frame.holds_of_lane hl) hstart)
    (mt (Frame.holds_of_lane hl) hfinish) hv hfrom hto

/-- The last vertex of a lane is the last one of the branch. -/
theorem endsBranch_lane {i : Nat} {l : Lane}
    (hl : (f.arms.lanes (f.opening + 2))[i]? = some l) (hpos : 0 < l.row.size) :
    (r.graph name taken).EndsBranch l.first (f.opening + 1) (l.last f.opening i) := by
  obtain ⟨-, hout⟩ := (r.shows_graph (ho.proper hw) name taken).region_lane hf hl hpos
  have hrank : Ranked (r.graph name taken).Child r.position :=
    fun a b => ho.position_of_child hw name taken
  have hfinish : ¬ l.Holds 1 := mt (Frame.holds_of_lane hl) (Row.ends_outside hf).2
  have hfirst : l.Holds l.first := ⟨Nat.le_refl _, Nat.lt_add_of_pos_right hpos⟩
  have hlast : l.Holds (l.last f.opening i) := l.holds_last f.opening i hpos
  have hclosing : Leads (r.graph name taken).Child (l.last f.opening i) (f.opening + 1) :=
    (through_out hout hlast hfinish).leads_left
      (ho.leads_frame hw name taken hf (Frame.holds_of_lane hl hlast)).2
  constructor
  case mem =>
    have hto := (ho.leads_lane hw name taken hf hl hpos hlast).1
    exact Graph.mem_between.mpr ⟨hto, hclosing⟩
  case ne =>
    have hlt := f.arms.mem_lanes hl
    unfold Lane.Holds at hlast
    show l.last f.opening i ≠ f.opening + 1
    omega
  case last =>
    intro z hz hne
    obtain ⟨hfrom, hto⟩ := Graph.mem_between.mp hz
    have hinside : l.Holds z := inside_of_before hout hrank hfirst hfrom hto hne
    exact (ho.leads_lane hw name taken hf hl hpos hinside).2

/-- The branch in the place of a lane ends where the lane does. -/
theorem branch_lane {i : Nat} {l : Lane} (hl : (f.arms.lanes (f.opening + 2))[i]? = some l) :
    if l.row.head l.first (f.opening + 1) = f.opening + 1 then l.last f.opening i = f.opening
    else (r.graph name taken).EndsBranch (l.row.head l.first (f.opening + 1)) (f.opening + 1)
      (l.last f.opening i) := by
  have hlt := f.arms.mem_lanes hl
  by_cases hpos : 0 < l.row.size
  · rw [Row.head_of_size_pos hpos, if_neg (by omega)]
    exact ho.endsBranch_lane hw name taken hf hl hpos
  · obtain ⟨hexit, hhead⟩ := Row.of_size_eq_zero (Nat.eq_zero_of_not_pos hpos)
      ⟨f.opening, i, l.condition⟩ l.first (f.opening + 1)
    rw [if_pos hhead, Lane.last, hexit]

/-- The opening and the closing of a frame are those of a block. -/
theorem block {x y : Vertex} (hx : (r.graph name taken).get? f.opening = some x)
    (hy : (r.graph name taken).get? (f.opening + 1) = some y) (hrole : f.role = x.role)
    (hclosing : f.role.closing = y.role) : (r.graph name taken).Block f.opening x y := by
  have hregion := (r.shows_graph (ho.proper hw) name taken).region_frame hf
  obtain ⟨hstart, hfinish⟩ := Row.ends_outside hf
  have hlies := Row.lies_allWires hf
  obtain ⟨harcs, -⟩ := Row.edges_of_get? hx
  obtain ⟨-, hparents⟩ := Row.edges_of_get? hy
  rw [hlies.wiresFrom_opening] at harcs
  rw [hlies.wiresInto_closing] at hparents
  have hlength := congrArg List.length
    (f.arms.wiresFrom_opening f.opening 0 (f.opening + 2) (by omega)).1
  rw [List.length_map] at hlength
  constructor
  case join =>
    intro hfork
    rw [← hclosing, hrole, hfork]
    rfl
  case decisionJoin =>
    intro hdecision
    rw [← hclosing, hrole, hdecision]
    rfl
  case entered => exact ⟨0, rfl, hregion.through_entry hstart f.holds_closing⟩
  case left => exact ⟨1, rfl, hregion.through_exit f.holds_opening hfinish⟩
  case length_eq =>
    rw [harcs, hparents, List.length_map, List.length_map, hlength, f.arms.length_ends]
  case branch =>
    intro i a u ha hu
    have hi : i < (f.arms.lanes (f.opening + 2)).length := by
      rw [f.arms.length_lanes, ← hlength, ← List.length_map (f := Wire.arc), ← harcs]
      exact (List.getElem?_eq_some_iff.mp ha).1
    have hl := List.getElem?_eq_getElem hi
    rw [harcs, List.getElem?_map, f.arms.getElem?_wiresFrom (by omega) hl] at ha
    rw [hparents, List.getElem?_map, f.arms.getElem?_ends f.opening 0 hl] at hu
    rw [← Option.some.inj ha, ← Option.some.inj hu, Nat.zero_add]
    exact ho.branch_lane hw name taken hf hl

end Row.Outlines

/-- In a lowered graph every fork and every decision opens a block. Of two blocks, one lies strictly
within the other, or they are disjoint. -/
theorem Workflow.Built.lowered_nested {w : Workflow} (h : w.Built) {g : Graph}
    (hg : Graph.ofWorkflow w = .ok g) :
    (∀ v x, g.get? v = some x → x.role.Opens → ∃ y, g.get? (v + 1) = some y ∧ g.Block v x y) ∧
      ∀ v v' x x', g.get? v = some x → x.role.Opens → g.get? v' = some x' → x'.role.Opens →
        v ≠ v' → Disjoint (g.between v (v + 1)) (g.between v' (v' + 1)) ∨
          g.between v (v + 1) ⊂ g.between v' (v' + 1) ∨
          g.between v' (v' + 1) ⊂ g.between v (v + 1) := by
  have hw := h.sound
  obtain ⟨r, ho, rfl⟩ := hw.exists_graph hg
  have hshows := r.shows_graph (ho.proper hw) w.name w.givenNames
  constructor
  · intro v x hx hopen
    obtain ⟨f, hf, rfl, hrole⟩ := hshows.exists_frame hx hopen
    obtain ⟨y, hy, hclosing⟩ := (hshows.role_iff _ _).mpr
      (Row.mem_allSites_of_mem_sites (r.closing_mem_sites 2 f hf))
    exact ⟨y, hy, ho.block hw w.name w.givenNames hf hx hy hrole hclosing.symm⟩
  · intro v v' x x' hx hopen hx' hopen' hne
    obtain ⟨f, hf, rfl, -⟩ := hshows.exists_frame hx hopen
    obtain ⟨f', hf', rfl, -⟩ := hshows.exists_frame hx' hopen'
    rw [ho.between_frame hw w.name w.givenNames hf, ho.between_frame hw w.name w.givenNames hf']
    have hne' : f ≠ f' := fun heq => hne (congrArg Frame.opening heq)
    rcases Row.before_or_before hf hf' hne' with h | h
    · rcases Frame.subset_or_disjoint h with h | h
      · exact .inr (.inr h)
      · exact .inl h
    · rcases Frame.subset_or_disjoint h with h | h
      · exact .inr (.inl h)
      · exact .inl h.symm

/-! ### A fork in a branch -/

/-- Two tests run side by side unless they are skipped. The branches of the fork merge where those
of the decision do. -/
def Script.tested : Script :=
  [plainNode "build" [], plainNode "test" [(0, some (.labeled "full"))],
    plainNode "unit" [(1, none)], plainNode "integration" [(1, none)],
    plainNode "ship" [(2, none), (3, none), (0, some .otherwise)]]

def Workflow.tested : Workflow := Script.tested.workflowOfFirst "tested"

theorem Workflow.tested_built : tested.Built := by
  have hmade : Script.tested.workflow { name := .ofDefault "tested", entries := [0] } =
      .ok tested := rfl
  exact Script.built hmade

def Graph.tested : Graph :=
  match Graph.ofWorkflow .tested with
  | .ok g => g
  | .error _ => {}

/-- The join of the fork leads right into the closing of the decision, whose other branch is
empty. -/
theorem Graph.tested_nested :
    ∃ x y x' y', tested.get? 3 = some x ∧ tested.get? 4 = some y ∧ tested.get? 6 = some x' ∧
      tested.get? 7 = some y' ∧ y'.children = [4] ∧ y.parents = [7, 3] ∧
      tested.Block 3 x y ∧ tested.Block 6 x' y' ∧
      (Disjoint (tested.between 3 4) (tested.between 6 7) ∨
        tested.between 3 4 ⊂ tested.between 6 7 ∨ tested.between 6 7 ⊂ tested.between 3 4) := by
  obtain ⟨hblock, hapart⟩ := Workflow.tested_built.lowered_nested (g := tested) rfl
  obtain ⟨x, hx, hdecision⟩ : ∃ x, tested.get? 3 = some x ∧ x.role = .decision := ⟨_, rfl, rfl⟩
  obtain ⟨x', hx', hfork⟩ : ∃ x, tested.get? 6 = some x ∧ x.role = .fork := ⟨_, rfl, rfl⟩
  obtain ⟨y, hy, houter⟩ := hblock 3 x hx (.inr hdecision)
  obtain ⟨y', hy', hinner⟩ := hblock 6 x' hx' (.inl hfork)
  have hparents : (tested.get? 4).map Vertex.parents = some [7, 3] := rfl
  have hchildren : (tested.get? 7).map Vertex.children = some [4] := rfl
  rw [hy, Option.map_some, Option.some.injEq] at hparents
  rw [hy', Option.map_some, Option.some.injEq] at hchildren
  exact ⟨x, y, x', y', hx, hy, hx', hy', hchildren, hparents, houter, hinner,
    hapart 3 6 x x' hx (.inr hdecision) hx' (.inl hfork) (by decide)⟩

end BatchFlow

import BatchFlow.Proofs.Outline.Fitting

/-!
# Frames

Each block of a row is a frame: its opening, its closing and its arms take up a run of ids of their
own. Two frames of a row stand one behind the other or one inside the other, and every opening among
the sites of the row is that of a frame.
-/

namespace BatchFlow

/-- A block of a row by the id of its opening. The closing has the next id, and the arms have the
ids after that. -/
structure Frame where
  opening : Nat
  role : Role
  arms : Arms

namespace Frame

def size (f : Frame) : Nat := f.arms.size + 2

/-- The id belongs to the block. -/
def Holds (f : Frame) (v : Nat) : Prop := f.opening ≤ v ∧ v < f.opening + f.size

theorem holds_opening (f : Frame) : f.Holds f.opening := by
  unfold Holds size
  omega

theorem holds_closing (f : Frame) : f.Holds (f.opening + 1) := by
  unfold Holds size
  omega

/-- The second block stands inside the first or behind it. -/
def Before (f f' : Frame) : Prop :=
  f.opening < f'.opening ∧ f'.opening + f'.size ≤ f.opening + f.size ∨
    f.opening + f.size ≤ f'.opening

end Frame

mutual

/-- The blocks of a row, each one before those in its arms. -/
def Row.frames : Row → Nat → List Frame
  | .done, _ => []
  | .task _ next, p => next.frames (p + 1)
  | .fork arms next, p => ⟨p, .fork, arms⟩ ::
      (arms.frames (p + 2) ++ next.frames (p + 2 + arms.size))
  | .decision arms next, p => ⟨p, .decision, arms⟩ ::
      (arms.frames (p + 2) ++ next.frames (p + 2 + arms.size))

def Arms.frames : Arms → Nat → List Frame
  | .none, _ => []
  | .arm _ row more, p => row.frames p ++ more.frames (p + row.size)

end

theorem Row.IsBlock.frames_eq {r next : Row} {role : Role} {arms : Arms}
    (h : r.IsBlock role arms next) (p : Nat) : r.frames p = ⟨p, role, arms⟩ ::
      (arms.frames (p + 2) ++ next.frames (p + 2 + arms.size)) := by
  cases h <;> rfl

/-! ## Runs of ids -/

mutual

theorem Row.mem_frames : ∀ (r : Row) (p : Nat) (f : Frame), f ∈ r.frames p →
    p ≤ f.opening ∧ f.opening + f.size ≤ p + r.size
  | .done, _, _ => fun h => by cases h
  | .task _ next, p, f => fun h => by
    have := Row.mem_frames next (p + 1) f h
    simp only [Row.size]
    omega
  | .fork arms next, p, f
  | .decision arms next, p, f => fun h => by
    simp only [Row.frames, List.mem_cons, List.mem_append] at h
    simp only [Row.size]
    rcases h with rfl | h | h
    · simp only [Frame.size]
      omega
    · have := Arms.mem_frames arms (p + 2) f h
      omega
    · have := Row.mem_frames next (p + 2 + arms.size) f h
      omega

theorem Arms.mem_frames : ∀ (arms : Arms) (p : Nat) (f : Frame), f ∈ arms.frames p →
    p ≤ f.opening ∧ f.opening + f.size ≤ p + arms.size
  | .none, _, _ => fun h => by cases h
  | .arm _ row more, p, f => fun h => by
    simp only [Arms.size]
    rcases List.mem_append.mp h with h | h
    · have := Row.mem_frames row p f h
      omega
    · have := Arms.mem_frames more (p + row.size) f h
      omega

end

/-- A block comes before those in its arms and those behind it, and the former come before the
latter. -/
theorem Arms.frames_block {arms : Arms} {next : Row} {p : Nat} (role : Role)
    (harms : (arms.frames (p + 2)).Pairwise Frame.Before)
    (hnext : (next.frames (p + 2 + arms.size)).Pairwise Frame.Before) :
    ((⟨p, role, arms⟩ : Frame) ::
      (arms.frames (p + 2) ++ next.frames (p + 2 + arms.size))).Pairwise Frame.Before := by
  refine List.pairwise_cons.mpr ⟨fun f hf => ?_, List.pairwise_append.mpr ⟨harms, hnext, ?_⟩⟩
  · unfold Frame.Before
    simp only [Frame.size]
    rcases List.mem_append.mp hf with hf | hf
    · have := arms.mem_frames _ f hf
      simp only [Frame.size] at this
      omega
    · have := next.mem_frames _ f hf
      omega
  · intro f hf f' hf'
    have := arms.mem_frames _ f hf
    have := next.mem_frames _ f' hf'
    unfold Frame.Before
    omega

mutual

theorem Row.frames_pairwise : ∀ (r : Row) (p : Nat), (r.frames p).Pairwise Frame.Before
  | .done, _ => .nil
  | .task _ next, p => Row.frames_pairwise next (p + 1)
  | .fork arms next, p
  | .decision arms next, p =>
    Arms.frames_block _ (Arms.frames_pairwise arms (p + 2)) (Row.frames_pairwise next _)

theorem Arms.frames_pairwise : ∀ (arms : Arms) (p : Nat), (arms.frames p).Pairwise Frame.Before
  | .none, _ => .nil
  | .arm _ row more, p => by
    refine List.pairwise_append.mpr
      ⟨Row.frames_pairwise row p, Arms.frames_pairwise more (p + row.size), fun f hf f' hf' => ?_⟩
    have := row.mem_frames _ f hf
    have := more.mem_frames _ f' hf'
    unfold Frame.Before
    omega

end

theorem Row.before_or_before {r : Row} {p : Nat} {f f' : Frame} (hf : f ∈ r.frames p)
    (hf' : f' ∈ r.frames p) (hne : f ≠ f') : f.Before f' ∨ f'.Before f := by
  obtain ⟨i, hi, rfl⟩ := List.mem_iff_getElem.mp hf
  obtain ⟨j, hj, rfl⟩ := List.mem_iff_getElem.mp hf'
  have hpairs := List.pairwise_iff_getElem.mp (r.frames_pairwise p)
  rcases Nat.lt_trichotomy i j with hij | rfl | hij
  · exact .inl (hpairs i j hi hj hij)
  · exact absurd rfl hne
  · exact .inr (hpairs j i hj hi hij)

/-! ## Frames and sites -/

/-- The opening of a block. -/
def Role.Opens (role : Role) : Prop := role = .fork ∨ role = .decision

mutual

/-- Every opening among the sites of a row is that of a block. -/
theorem Row.exists_frame : ∀ (r : Row) (p v : Nat) (role : Role), (v, role) ∈ r.sites p →
    role.Opens → ∃ f ∈ r.frames p, f.opening = v ∧ f.role = role
  | .done, _, _, _ => fun h => by cases h
  | .task _ next, p, v, role => fun h hopen => by
    rcases List.mem_cons.mp h with h | h
    · obtain ⟨-, rfl⟩ := Prod.mk.inj h
      rcases hopen with hrole | hrole <;> cases hrole
    · exact Row.exists_frame next (p + 1) v role h hopen
  | .fork arms next, p, v, role
  | .decision arms next, p, v, role => fun h hopen => by
    simp only [Row.sites, List.mem_cons, List.mem_append, Prod.mk.injEq] at h
    rcases h with ⟨rfl, rfl⟩ | ⟨-, rfl⟩ | h | h
    · exact ⟨_, List.mem_cons_self, rfl, rfl⟩
    · rcases hopen with hrole | hrole <;> cases hrole
    · obtain ⟨f, hf, hfv⟩ := Arms.exists_frame arms (p + 2) v role h hopen
      exact ⟨f, List.mem_cons_of_mem _ (List.mem_append_left _ hf), hfv⟩
    · obtain ⟨f, hf, hfv⟩ := Row.exists_frame next (p + 2 + arms.size) v role h hopen
      exact ⟨f, List.mem_cons_of_mem _ (List.mem_append_right _ hf), hfv⟩

theorem Arms.exists_frame : ∀ (arms : Arms) (p v : Nat) (role : Role),
    (v, role) ∈ arms.sites p → role.Opens → ∃ f ∈ arms.frames p, f.opening = v ∧ f.role = role
  | .none, _, _, _ => fun h => by cases h
  | .arm _ row more, p, v, role => fun h hopen => by
    rcases List.mem_append.mp h with h | h
    · obtain ⟨f, hf, hfv⟩ := Row.exists_frame row p v role h hopen
      exact ⟨f, List.mem_append_left _ hf, hfv⟩
    · obtain ⟨f, hf, hfv⟩ := Arms.exists_frame more (p + row.size) v role h hopen
      exact ⟨f, List.mem_append_right _ hf, hfv⟩

end

/-- The sites that a block takes up. -/
def Frame.sites (f : Frame) : List Site :=
  (f.opening, f.role) :: (f.opening + 1, f.role.closing) :: f.arms.sites (f.opening + 2)

mutual

theorem Row.sites_of_frame : ∀ (r : Row) (p : Nat) (f : Frame), f ∈ r.frames p →
    f.sites ⊆ r.sites p
  | .done, _, _ => fun h => by cases h
  | .task _ next, p, f => fun h =>
    List.subset_cons_of_subset _ (Row.sites_of_frame next (p + 1) f h)
  | .fork arms next, p, f
  | .decision arms next, p, f => fun h => by
    rcases List.mem_cons.mp h with rfl | h
    · exact List.cons_subset_cons _ (List.cons_subset_cons _ (List.subset_append_left _ _))
    · rcases List.mem_append.mp h with h | h
      · have harms := Arms.sites_of_frame arms (p + 2) f h
        exact List.subset_cons_of_subset _ (List.subset_cons_of_subset _
          (List.subset_append_of_subset_left _ harms))
      · have hnext := Row.sites_of_frame next _ f h
        exact List.subset_cons_of_subset _ (List.subset_cons_of_subset _
          (List.subset_append_of_subset_right _ hnext))

theorem Arms.sites_of_frame : ∀ (arms : Arms) (p : Nat) (f : Frame), f ∈ arms.frames p →
    f.sites ⊆ arms.sites p
  | .none, _, _ => fun h => by cases h
  | .arm _ row more, p, f => fun h => by
    rcases List.mem_append.mp h with h | h
    · exact List.subset_append_of_subset_left _ (Row.sites_of_frame row p f h)
    · exact List.subset_append_of_subset_right _ (Arms.sites_of_frame more (p + row.size) f h)

end

/-- The closing of a block has the next id. -/
theorem Row.closing_mem_sites (r : Row) (p : Nat) (f : Frame) (h : f ∈ r.frames p) :
    (f.opening + 1, f.role.closing) ∈ r.sites p :=
  r.sites_of_frame p f h (List.mem_cons_of_mem _ List.mem_cons_self)

end BatchFlow

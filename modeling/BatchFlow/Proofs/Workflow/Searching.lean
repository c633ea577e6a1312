import BatchFlow.Proofs.Workflow.Connection
import BatchFlow.Proofs.Workflow.Made
import Mathlib.Data.List.Sort

/-!
# Searching for connected nodes

Which nodes are connected to the entries is told by labels. It could as well be searched for: from
one entry after the other, breadth first, along edges in whichever direction, and past the nodes
that were met before, also from an earlier entry. In a sound dag the search comes to an end. It
finds no node that is unknown but for an entry, and it meets the nodes that are connected to an
entry. So a workflow that is built by searching is the one that is built by labels.
-/

namespace BatchFlow

/-- How far a search has come. -/
structure Search where
  /-- The entries ahead. -/
  entries : List NodeId
  /-- The nodes whose neighbours were not looked at yet. -/
  queue : List NodeId := []
  /-- All nodes that were met, in the order in which they were. -/
  met : List NodeId := []

/-- What a search for connected nodes comes to: the first entry that is not in the dag, or else the
nodes in the order of the arena. -/
def Dag.sought (d : Dag) (entries : List NodeId) : Except BuildError (List NodeId) :=
  match entries.find? (d.size ≤ ·) with
  | some e => .error (.unknownNode e)
  | none => .ok (d.connected entries)

namespace Search

/-- Meets a node. One that was met before is passed over. -/
def meet (s : Search) (id : NodeId) : Search :=
  if s.met.contains id then s else { s with queue := s.queue ++ [id], met := s.met ++ [id] }

/-- Meets the neighbours of the first node in the queue, its parents before its children. When the
queue is empty, meets the next entry, and without one the search is over. -/
def step (d : Dag) (s : Search) : Except BuildError (Option Search) :=
  match s.queue, s.entries with
  | id :: rest, _ => do
      let n ← d.node id
      return some ((n.parents ++ n.children).foldl meet { s with queue := rest })
  | [], entry :: rest => do
      let _ ← d.node entry
      return some ({ s with entries := rest }.meet entry)
  | [], [] => return none

/-- A search that goes on to its end, with its answer. One without end has none. -/
inductive Answers (d : Dag) : Search → Except BuildError (List NodeId) → Prop
  | finished {s : Search} : s.step d = .ok none → Answers d s (.ok s.met)
  | refused {s : Search} {e : BuildError} : s.step d = .error e → Answers d s (.error e)
  | onward {s s' : Search} {answer : Except BuildError (List NodeId)} :
      s.step d = .ok (some s') → Answers d s' answer → Answers d s answer

theorem Answers.unique {d : Dag} {s : Search} {answer answer' : Except BuildError (List NodeId)}
    (h : Answers d s answer) (h' : Answers d s answer') : answer = answer' := by
  induction h with
  | finished hstep =>
    cases h' with
    | finished _ => rfl
    | refused hstep' => cases hstep.symm.trans hstep'
    | onward hstep' _ => cases hstep.symm.trans hstep'
  | refused hstep =>
    cases h' with
    | finished hstep' => cases hstep.symm.trans hstep'
    | refused hstep' =>
      cases hstep.symm.trans hstep'
      rfl
    | onward hstep' _ => cases hstep.symm.trans hstep'
  | onward hstep _ ih =>
    cases h' with
    | finished hstep' => cases hstep.symm.trans hstep'
    | refused hstep' => cases hstep.symm.trans hstep'
    | onward hstep' hrest =>
      cases hstep.symm.trans hstep'
      exact ih hrest

section step

variable {d : Dag} {ahead rest met : List NodeId} {id : NodeId}

theorem step_of_waiting {n : Node} (hn : d.get? id = some n) :
    step d ⟨ahead, id :: rest, met⟩ =
      .ok (some ((n.parents ++ n.children).foldl meet ⟨ahead, rest, met⟩)) := by
  show (d.node id >>= _) = _
  rw [Dag.node_eq_ok_iff.mpr hn]
  rfl

theorem step_of_entry (hid : id < d.size) :
    step d ⟨id :: rest, [], met⟩ = .ok (some (meet ⟨rest, [], met⟩ id)) := by
  obtain ⟨n, hn⟩ := Dag.get?_eq_some_iff.mpr hid
  show (d.node id >>= _) = _
  rw [Dag.node_eq_ok_iff.mpr hn]
  rfl

theorem step_of_unknown (hid : d.size ≤ id) :
    step d ⟨id :: rest, [], met⟩ = .error (.unknownNode id) := by
  show (d.node id >>= _) = _
  rw [Dag.node_eq_error_iff.mpr ⟨hid, rfl⟩]
  rfl

end step

/-! ## What a search has met -/

/-- The nodes that were not met before go to the end of the queue. -/
theorem foldl_meet (ids : List NodeId) (s : Search) : ∃ new : List NodeId,
    ids.foldl meet s = { s with queue := s.queue ++ new, met := s.met ++ new } ∧
      new.Nodup ∧ ∀ a, a ∈ new ↔ a ∈ ids ∧ a ∉ s.met := by
  induction ids generalizing s with
  | nil => exact ⟨[], by simp, List.nodup_nil, by simp⟩
  | cons id rest ih =>
    obtain ⟨new, hnew, hnodup, hmem⟩ := ih (s.meet id)
    rw [List.foldl_cons, hnew]
    by_cases hid : id ∈ s.met
    · have hmeet : s.meet id = s := if_pos (List.contains_iff_mem.mpr hid)
      rw [hmeet] at hmem ⊢
      refine ⟨new, rfl, hnodup, fun a => ?_⟩
      rw [hmem, List.mem_cons]
      refine and_congr_left fun ha => ?_
      have hne : a ≠ id := fun h => ha (h ▸ hid)
      simp [hne]
    · have hmeet : s.meet id = { s with queue := s.queue ++ [id], met := s.met ++ [id] } :=
        if_neg fun h => hid (List.contains_iff_mem.mp h)
      rw [hmeet] at hmem ⊢
      refine ⟨id :: new, by simp, List.nodup_cons.mpr ⟨?_, hnodup⟩, fun a => ?_⟩
      · simp [hmem]
      · rw [List.mem_cons, hmem, List.mem_cons]
        by_cases ha : a = id
        · simp [ha, hid]
        · simp [ha]

/-- What holds of a search for some entries at each stage. -/
structure Sound (d : Dag) (entries : List NodeId) (s : Search) : Prop where
  nodup : s.met.Nodup
  queued : ∀ a ∈ s.queue, a ∈ s.met
  connected : ∀ a ∈ s.met, a ∈ d.connected entries
  /-- Only the neighbours of nodes in the queue may still be to be met. -/
  closed : ∀ a ∈ s.met, a ∈ s.queue ∨ ∀ b, d.Adjacent a b → b ∈ s.met
  entered : ∀ e ∈ entries, e ∈ s.entries ∨ e ∈ s.met
  ahead : s.entries ⊆ entries
  /-- The entries before were known. -/
  unknown_eq : entries.find? (d.size ≤ ·) = s.entries.find? (d.size ≤ ·)

theorem sound_start (d : Dag) (entries : List NodeId) : Sound d entries { entries } where
  nodup := List.nodup_nil
  queued := by simp
  connected := by simp
  closed := by simp
  entered _ he := .inl he
  ahead := List.Subset.refl _
  unknown_eq := rfl

/-- What is left to do: each node that was not met yet is to be met and to be looked at. -/
def left (d : Dag) (s : Search) : Nat :=
  2 * (d.size - s.met.length) + s.queue.length + s.entries.length

namespace Sound

variable {d : Dag} {entries : List NodeId} {s : Search} (h : Sound d entries s)
include h

theorem length_met_le : s.met.length ≤ d.size := by
  have hsub : s.met ⊆ List.range d.size := fun a ha =>
    List.mem_range.mpr (Dag.lt_of_mem_connected a (h.connected a ha))
  have hle := (List.subperm_of_subset h.nodup hsub).length_le
  rwa [List.length_range] at hle

/-- A search that has something out of the way, and meets what that brings, stays sound and has
less to do. -/
theorem meets {t : Search} {ids : List NodeId} (hmet : t.met = s.met)
    (hqueue : t.queue ⊆ s.queue) (hids : ∀ a ∈ ids, a ∈ d.connected entries)
    (hclosed : ∀ a ∈ s.queue, a ∈ t.queue ∨ ∀ b, d.Adjacent a b → b ∈ ids)
    (hentries : t.entries ⊆ s.entries) (hentered : ∀ e ∈ s.entries, e ∈ t.entries ∨ e ∈ ids)
    (hunknown : s.entries.find? (d.size ≤ ·) = t.entries.find? (d.size ≤ ·)) :
    Sound d entries (ids.foldl meet t) ∧ left d (ids.foldl meet t) ≤ left d t := by
  obtain ⟨new, hnew, hnodup, hmem⟩ := foldl_meet ids t
  rw [hmet] at hnew hmem
  rw [hnew]
  have hmeets : ∀ a ∈ ids, a ∈ s.met ++ new := by
    intro a ha
    by_cases hold : a ∈ s.met
    · exact List.mem_append_left _ hold
    · exact List.mem_append_right _ ((hmem a).mpr ⟨ha, hold⟩)
  have hsound : Sound d entries { t with queue := t.queue ++ new, met := s.met ++ new } := by
    constructor
    case nodup =>
      refine List.nodup_append.mpr ⟨h.nodup, hnodup, fun a ha b hb hab => ?_⟩
      exact ((hmem b).mp hb).2 (hab ▸ ha)
    case queued =>
      intro a ha
      rcases List.mem_append.mp ha with ha | ha
      · exact List.mem_append_left _ (h.queued a (hqueue ha))
      · exact List.mem_append_right _ ha
    case connected =>
      intro a ha
      rcases List.mem_append.mp ha with ha | ha
      · exact h.connected a ha
      · exact hids a ((hmem a).mp ha).1
    case closed =>
      intro a ha
      rcases List.mem_append.mp ha with ha | ha
      · rcases h.closed a ha with ha | hall
        · refine (hclosed a ha).imp (List.mem_append_left _) fun hall b hb => ?_
          exact hmeets b (hall b hb)
        · exact .inr fun b hb => List.mem_append_left _ (hall b hb)
      · exact .inl (List.mem_append_right _ ha)
    case entered =>
      intro e he
      rcases h.entered e he with he | he
      · exact (hentered e he).imp_right (hmeets e)
      · exact .inr (List.mem_append_left _ he)
    case ahead => exact List.Subset.trans hentries h.ahead
    case unknown_eq => exact h.unknown_eq.trans hunknown
  refine ⟨hsound, ?_⟩
  have hle := hsound.length_met_le
  simp only [left, hmet, List.length_append] at hle ⊢
  omega

end Sound

namespace Sound

variable {d : Dag} (hd : d.Sound) {entries ahead rest met : List NodeId} {id : NodeId} {n : Node}
include hd

/-- The search looks at the neighbours of a node in the queue. -/
theorem looks (h : Sound d entries ⟨ahead, id :: rest, met⟩) (hn : d.get? id = some n) :
    let s' := (n.parents ++ n.children).foldl meet ⟨ahead, rest, met⟩
    Sound d entries s' ∧ left d s' < left d ⟨ahead, id :: rest, met⟩ := by
  have hadjacent : ∀ b, d.Adjacent id b ↔ b ∈ n.parents ++ n.children := by
    intro b
    simp [Dag.Adjacent, hn]
  have hids : ∀ b ∈ n.parents ++ n.children, b ∈ d.connected entries := by
    intro b hb
    have hb := (hadjacent b).mpr hb
    have hid := h.connected id (h.queued id List.mem_cons_self)
    obtain ⟨-, e, he, hconnected⟩ := hd.mem_connected_iff.mp hid
    exact hd.mem_connected_iff.mpr ⟨hd.lt_of_adjacent hb, e, he, hconnected.tail hb⟩
  have hclosed : ∀ a ∈ id :: rest,
      a ∈ rest ∨ ∀ b, d.Adjacent a b → b ∈ n.parents ++ n.children := by
    intro a ha
    rcases List.mem_cons.mp ha with rfl | ha
    · exact .inr fun b hb => (hadjacent b).mp hb
    · exact .inl ha
  obtain ⟨hsound, hle⟩ := h.meets (t := ⟨ahead, rest, met⟩) rfl (List.subset_cons_self _ _) hids
    hclosed (List.Subset.refl _) (fun e he => .inl he) rfl
  refine ⟨hsound, Nat.lt_of_le_of_lt hle ?_⟩
  simp only [left, List.length_cons]
  omega

/-- The search takes an entry that is in the dag. -/
theorem enters (h : Sound d entries ⟨id :: ahead, [], met⟩) (hid : id < d.size) :
    let s' := meet ⟨ahead, [], met⟩ id
    Sound d entries s' ∧ left d s' < left d ⟨id :: ahead, [], met⟩ := by
  have hids : ∀ a ∈ [id], a ∈ d.connected entries := by
    intro a ha
    rw [List.mem_singleton.mp ha]
    exact hd.mem_connected_iff.mpr ⟨hid, id, h.ahead List.mem_cons_self, .refl⟩
  have hentered : ∀ e ∈ id :: ahead, e ∈ ahead ∨ e ∈ [id] := by
    intro e he
    exact (List.mem_cons.mp he).symm.imp_right List.mem_singleton.mpr
  have hknown : (id :: ahead).find? (d.size ≤ ·) = ahead.find? (d.size ≤ ·) := by
    simp [hid]
  obtain ⟨hsound, hle⟩ := h.meets (t := ⟨ahead, [], met⟩) rfl (List.Subset.refl _) hids
    (fun a ha => by cases ha) (List.subset_cons_self _ _) hentered hknown
  refine ⟨hsound, Nat.lt_of_le_of_lt hle ?_⟩
  simp only [left, List.length_cons]
  omega

/-- A search that is over has met the nodes that are connected to the entries, and all entries were
known. -/
theorem finished (h : Sound d entries ⟨[], [], met⟩) :
    entries.find? (d.size ≤ ·) = none ∧ met.mergeSort = d.connected entries := by
  refine ⟨h.unknown_eq, ?_⟩
  have hsorted := d.connected_sorted entries
  have hclosed : ∀ a b, d.Connected a b → a ∈ met → b ∈ met := by
    intro a b hab ha
    induction hab with
    | refl => exact ha
    | tail _ hstep ih => exact (h.closed _ ih).elim (fun hb => by cases hb) fun hall => hall _ hstep
  have hmem : ∀ a, a ∈ met ↔ a ∈ d.connected entries := by
    intro a
    refine ⟨h.connected a, fun ha => ?_⟩
    obtain ⟨-, e, he, hea⟩ := hd.mem_connected_iff.mp ha
    exact hclosed e a hea ((h.entered e he).elim (fun he => by cases he) fun he => he)
  have hperm : met.Perm (d.connected entries) :=
    (List.perm_ext_iff_of_nodup h.nodup (hsorted.imp Nat.ne_of_lt)).mpr hmem
  exact ((List.mergeSort_perm ..).trans hperm).eq_of_pairwise'
    (List.pairwise_mergeSort' (· ≤ ·) met) (hsorted.imp Nat.le_of_lt)

/-- A sound search has an answer. -/
theorem exists_answer {s : Search} (h : Sound d entries s) :
    ∃ answer, s.Answers d answer ∧ answer.map (·.mergeSort) = d.sought entries := by
  obtain ⟨bound, hbound⟩ : ∃ bound, left d s = bound := ⟨_, rfl⟩
  induction bound using Nat.strong_induction_on generalizing s with
  | _ bound ih =>
    subst hbound
    have honward : ∀ s', s.step d = .ok (some s') → Sound d entries s' ∧ left d s' < left d s →
        ∃ answer, s.Answers d answer ∧ answer.map (·.mergeSort) = d.sought entries := by
      intro s' hstep hs'
      obtain ⟨answer, hanswer, heq⟩ := ih _ hs'.2 hs'.1 rfl
      exact ⟨answer, .onward hstep hanswer, heq⟩
    obtain ⟨ahead, queue, met⟩ := s
    match queue, ahead with
    | id :: rest, ahead =>
      have hid := Dag.lt_of_mem_connected id (h.connected id (h.queued id List.mem_cons_self))
      obtain ⟨n, hn⟩ := Dag.get?_eq_some_iff.mpr hid
      exact honward _ (step_of_waiting hn) (looks hd h hn)
    | [], e :: ahead =>
      by_cases he : d.size ≤ e
      · refine ⟨_, .refused (step_of_unknown he), ?_⟩
        rw [Dag.sought, h.unknown_eq, List.find?_cons_of_pos (by simpa using he)]
        rfl
      · have he := Nat.lt_of_not_le he
        exact honward _ (step_of_entry he) (enters hd h he)
    | [], [] =>
      obtain ⟨hknown, hmet⟩ := finished hd h
      refine ⟨_, .finished rfl, ?_⟩
      rw [Dag.sought, hknown]
      exact congrArg Except.ok hmet

end Sound
end Search

/-! ## Building by a search -/

namespace Workflow.Draft

/-- The workflow of copies of the nodes with these ids, unless two of them share a name. -/
def copied (draft : Draft) (d : Dag) (name : String) (ids : List NodeId) :
    Except BuildError Workflow :=
  let dag := d.subset ids
  match dag.repeatedName? with
  | some repeated => .error (.duplicateName repeated name)
  | none =>
      .ok { name, dag
            roots := (dag.nodes.filter fun n => n.parents.isEmpty).map Node.id
            parameters := draft.parameters
            global := draft.global.value
            credentials := draft.credentials }

/-- What is built by a search for the nodes that are connected to the entries. What was met is put
into the order of the arena. -/
inductive Searches (draft : Draft) (d : Dag) : Except BuildError Workflow → Prop
  | unnamed : draft.name.value = none → Searches draft d (.error (.missingName .workflow))
  | named {name : String} {found : Except BuildError (List NodeId)} :
      draft.name.value = some name → Search.Answers d { entries := draft.entries } found →
      Searches draft d (found >>= fun met => draft.copied d name met.mergeSort)

variable {draft : Draft} {d : Dag}

theorem build_eq_sought {name : String} (hname : draft.name.value = some name) :
    draft.build d = d.sought draft.entries >>= draft.copied d name := by
  rw [build_eq d hname, Dag.sought]
  cases draft.entries.find? (d.size ≤ ·) <;> rfl

/-- A search comes to an end, and it builds what is built by labels. -/
theorem searches_iff (hd : d.Sound) {answer : Except BuildError Workflow} :
    draft.Searches d answer ↔ answer = draft.build d := by
  obtain ⟨found, hfound, hsought⟩ := (Search.sound_start d draft.entries).exists_answer hd
  have hbuild : ∀ name, draft.name.value = some name →
      (found >>= fun met => draft.copied d name met.mergeSort) = draft.build d := by
    intro name hname
    rw [build_eq_sought hname, ← hsought]
    cases found <;> rfl
  constructor
  · intro h
    cases h with
    | unnamed hname => exact (build_of_unnamed d hname).symm
    | @named name found' hname hfound' =>
      rw [hfound'.unique hfound]
      exact hbuild name hname
  · rintro rfl
    cases hname : draft.name.value with
    | none =>
      rw [build_of_unnamed d hname]
      exact .unnamed hname
    | some name =>
      rw [← hbuild name hname]
      exact .named hname hfound

end Workflow.Draft
end BatchFlow

import BatchFlow.Proofs.Document.Calls
import BatchFlow.Proofs.Graph.Arena
import Mathlib.Data.List.Duplicate

/-!
# The elements that are placed

A document in the making holds the elements that the vertices so far call for, and its claimed names
are theirs and that of the end. Placing the next vertex adds what it calls for, unless a name of its
elements is in use already. The run over all vertices follows by induction, and so does the whole
document.
-/

namespace BatchFlow

/-- The name that is claimed twice is one of these and occurs twice among them. -/
def Clashes (names : List String) (e : DocumentError) : Prop :=
  ∃ name, e = .duplicateElementName name ∧ names.Duplicate name

theorem Clashes.mono {names more : List String} (hsub : names.Sublist more) (e : DocumentError)
    (h : Clashes names e) : Clashes more e := by
  obtain ⟨name, rfl, hname⟩ := h
  exact ⟨name, rfl, hname.mono_sublist hsub⟩

/-- The names that a document with these elements uses. -/
def claimed (finish : String) (els : List Element) : List String := finish :: els.map Element.name

theorem claimed_append (finish : String) (els more : List Element) :
    claimed finish (els ++ more) = claimed finish els ++ more.map Element.name := by
  simp [claimed]

theorem claimed_sublist (finish : String) (els more : List Element) :
    (claimed finish els).Sublist (claimed finish (els ++ more)) := by
  rw [claimed_append]
  exact List.sublist_append_left ..

namespace Emission

/-- What a document in the making holds: its elements, their names claimed once each, and the
handlers that have an element. -/
structure Holds (e : Emission) (finish : String) (carried : Handler → Prop)
    (els : List Element) : Prop where
  elements_eq : e.elements = els
  names_eq : e.names = (claimed finish els).reverse
  nodup : (claimed finish els).Nodup
  mem_handlers : ∀ h, h ∈ e.handlers ↔ carried h

variable {e : Emission} {t : Translator} {g : Graph} {finish kill : String} {v : Vertex}
  {carried : Handler → Prop} {els more guards : List Element} {earlier vs : List Vertex}

/-! ## One element -/

theorem Holds.claim (h : e.Holds finish carried els) (el : Element) :
    Ends (fun e' => (e'.push el).Holds finish carried (els ++ [el]))
      (Clashes (claimed finish (els ++ [el]))) (e.claim el.name) := by
  unfold Emission.claim
  have hclaimed : claimed finish (els ++ [el]) = claimed finish els ++ [el.name] :=
    claimed_append ..
  have hmem : el.name ∈ e.names ↔ el.name ∈ claimed finish els := by
    rw [h.names_eq, List.mem_reverse]
  by_cases hin : el.name ∈ claimed finish els
  · rw [if_pos (List.contains_iff_mem.mpr (hmem.mpr hin))]
    refine ⟨el.name, rfl, ?_⟩
    rw [hclaimed, List.duplicate_iff_two_le_count, List.count_append]
    have hpos := List.count_pos_iff.mpr hin
    simp only [List.count_singleton_self]
    omega
  · rw [if_neg fun hc => hin (hmem.mp (List.contains_iff_mem.mp hc))]
    constructor
    · simp [push, h.elements_eq]
    · simp [push, h.names_eq, hclaimed]
    · rw [hclaimed, ← List.concat_eq_append]
      exact h.nodup.concat hin
    · exact h.mem_handlers

theorem Holds.place (h : e.Holds finish carried els) (el : Element) :
    Ends (Emission.Holds · finish carried (els ++ [el])) (Clashes (claimed finish (els ++ [el])))
      (e.place el) :=
  (h.claim el).bind fun _ he => he

theorem Holds.placeHandler {h : Handler} {error : String}
    (he : e.Holds finish (·.On earlier) els)
    (hguards : t.Guards kill earlier (some h) guards error) :
    Ends (Emission.Holds · finish (fun k => k.On earlier ∨ k = h) (els ++ guards))
      (Clashes (claimed finish (els ++ guards))) (e.placeHandler t.mappings kill h) := by
  unfold Emission.placeHandler
  cases hguards with
  | again hon =>
    rw [if_pos (List.contains_iff_mem.mpr ((he.mem_handlers h).mpr hon)), List.append_nil]
    refine ⟨he.elements_eq, he.names_eq, he.nodup, fun k => ?_⟩
    rw [he.mem_handlers]
    exact ⟨.inl, fun hk => hk.elim id fun hk => hk ▸ hon⟩
  | @first _ payload hnew hpayload =>
    rw [if_neg fun hc => hnew ((he.mem_handlers h).mp (List.contains_iff_mem.mp hc))]
    refine (he.claim ⟨h.name, .action payload kill kill⟩).bind fun e' he' => ?_
    rw [hpayload]
    refine ⟨he'.elements_eq, he'.names_eq, he'.nodup, fun k => ?_⟩
    show k ∈ (e'.push ⟨h.name, .action payload kill kill⟩).handlers ++ [h] ↔ _
    rw [List.mem_append, List.mem_singleton, he'.mem_handlers]

/-! ## One vertex -/

theorem Holds.mono {carried' : Handler → Prop} (h : e.Holds finish carried els)
    (hsame : ∀ k, carried k ↔ carried' k) : e.Holds finish carried' els :=
  ⟨h.elements_eq, h.names_eq, h.nodup, fun k => (h.mem_handlers k).trans (hsame k)⟩

/-- Placing a vertex without a handler leaves the handlers as they are. -/
theorem Holds.unhandled (h : e.Holds finish (·.On earlier) els) (hv : v.handler? = none) :
    e.Holds finish (·.On (earlier ++ [v])) els :=
  h.mono fun k => by rw [Handler.on_concat_iff, hv]; simp

/-- The name that a task goes to on success. -/
def okName (g : Graph) (finish : String) (v : Vertex) : Except DocumentError String :=
  match v.child? with
  | some next => g.targetName next
  | none => .ok finish

theorem okName_eq_ok_iff {ok : String} : okName g finish v = .ok ok ↔ g.GoesOn finish v ok := by
  unfold okName
  constructor
  · intro h
    cases hnext : v.child? with
    | none =>
      rw [hnext] at h
      cases h
      exact .ends hnext
    | some next =>
      rw [hnext] at h
      exact .along hnext (Graph.targetName_eq_ok_iff.mp h)
  · intro h
    cases h with
    | along hnext hok =>
      rw [hnext]
      exact Graph.targetName_eq_ok_iff.mpr hok
    | ends hnone => rw [hnone]

/-- Places the element of a handler, if there is one. -/
def placeGuard (e : Emission) (m : Mappings) (kill : String) :
    Option Handler → Except DocumentError Emission
  | some h => e.placeHandler m kill h
  | none => .ok e

/-- The steps of placing a task, in a row. -/
theorem placeVertex_task {task : Task} (hrole : v.role = .task task) :
    e.placeVertex t g finish kill v =
      t.mappings.map v.name task.action >>= fun payload => okName g finish v >>= fun ok =>
        e.placeGuard t.mappings kill task.handler >>= fun e' =>
          e'.place ⟨v.name, .action payload ok ((task.handler.map Handler.name).getD kill)⟩ := by
  unfold placeVertex okName
  rw [hrole]
  obtain ⟨source, action, handler⟩ := task
  cases v.child? <;> cases handler <;> rfl

theorem Holds.placeGuard {handler : Option Handler} {error : String}
    (h : e.Holds finish (·.On earlier) els) (hv : v.handler? = handler)
    (hguards : t.Guards kill earlier handler guards error) :
    Ends (Emission.Holds · finish (·.On (earlier ++ [v])) (els ++ guards))
      (Clashes (claimed finish (els ++ guards))) (e.placeGuard t.mappings kill handler) := by
  cases handler with
  | none =>
    cases hguards
    rw [List.append_nil]
    exact h.unhandled hv
  | some k =>
    refine (h.placeHandler hguards).mono (fun e' he' => he'.mono fun k' => ?_) fun _ => id
    rw [Handler.on_concat_iff, hv, Option.some.injEq, eq_comm (a := k')]

/-- What a vertex calls for is placed, unless a name is in use. -/
theorem Holds.placeVertex (h : e.Holds finish (·.On earlier) els)
    (hadmits : v.role.Admits v.parents.length (v.arcs.map Arc.condition))
    (hv : v.Calls t g finish kill earlier more) :
    Ends (Emission.Holds · finish (·.On (earlier ++ [v])) (els ++ more))
      (Clashes (claimed finish (els ++ more))) (e.placeVertex t g finish kill v) := by
  cases hv with
  | silent hrole =>
    unfold Emission.placeVertex
    rw [List.append_nil]
    rcases hrole with hrole | hrole | hrole | hrole <;> rw [hrole] <;>
      exact h.unhandled (by simp [Vertex.handler?, hrole])
  | decision hrole hcases hnext hdefault =>
    have h' := h.unhandled (v := v) (by simp [Vertex.handler?, hrole])
    rw [hrole] at hadmits
    unfold Emission.placeVertex
    rw [hrole]
    show Ends _ _ (decisionBody g v >>= fun body => e.place ⟨v.name, body⟩)
    rw [(decisionBody_eq_ok_iff hadmits).mpr ⟨_, _, _, hcases, hnext, hdefault, rfl⟩]
    exact h'.place _
  | fork hrole hne hpaths =>
    have h' := h.unhandled (v := v) (by simp [Vertex.handler?, hrole])
    unfold Emission.placeVertex
    rw [hrole]
    show Ends _ _ (forkBody g v >>= fun body => e.place ⟨v.name, body⟩)
    rw [forkBody_eq_ok_iff.mpr ⟨hne, _, hpaths, rfl⟩]
    exact h'.place _
  | join hrole hnext htarget =>
    have h' := h.unhandled (v := v) (by simp [Vertex.handler?, hrole])
    unfold Emission.placeVertex
    rw [hrole]
    show Ends _ _ (joinBody g v >>= fun body => e.place ⟨v.name, body⟩)
    rw [joinBody_eq_ok_iff.mpr ⟨_, _, hnext, htarget, rfl⟩]
    exact h'.place _
  | @task task payload guards ok error hrole hpayload hok hguards =>
    have herror : (task.handler.map Handler.name).getD kill = error := by
      generalize task.handler = handler at hguards
      cases hguards <;> rfl
    rw [placeVertex_task hrole, hpayload, okName_eq_ok_iff.mpr hok, herror, ← List.append_assoc]
    have hguard := h.placeGuard (v := v) (by simp [Vertex.handler?, hrole]) hguards
    exact (hguard.mono (fun _ => id) (Clashes.mono (claimed_sublist ..))).bind
      fun e' he' => he'.place _

theorem Holds.exists_guards {e' : Emission} {handler : Option Handler}
    (h : e.Holds finish (·.On earlier) els)
    (hplaced : e.placeGuard t.mappings kill handler = .ok e') :
    ∃ guards, t.Guards kill earlier handler guards ((handler.map Handler.name).getD kill) := by
  cases handler with
  | none => exact ⟨[], .unguarded⟩
  | some k =>
    by_cases hon : k.On earlier
    · exact ⟨[], .again hon⟩
    · have hnew : ¬ e.handlers.contains k = true :=
        fun hc => hon ((h.mem_handlers k).mp (List.contains_iff_mem.mp hc))
      change e.placeHandler t.mappings kill k = .ok e' at hplaced
      rw [Emission.placeHandler, if_neg hnew] at hplaced
      obtain ⟨_, -, hplaced⟩ := bind_eq_ok_iff.mp hplaced
      obtain ⟨payload, hpayload, -⟩ := bind_eq_ok_iff.mp hplaced
      exact ⟨_, .first hon hpayload⟩

/-- A vertex that is placed calls for something. -/
theorem Holds.exists_calls {e' : Emission} (h : e.Holds finish (·.On earlier) els)
    (hadmits : v.role.Admits v.parents.length (v.arcs.map Arc.condition))
    (hplaced : e.placeVertex t g finish kill v = .ok e') :
    ∃ more, v.Calls t g finish kill earlier more := by
  cases hrole : v.role with
  | start => exact ⟨[], .silent (.inl hrole)⟩
  | finish => exact ⟨[], .silent (.inr (.inl hrole))⟩
  | kill => exact ⟨[], .silent (.inr (.inr (.inl hrole)))⟩
  | decisionJoin => exact ⟨[], .silent (.inr (.inr (.inr hrole)))⟩
  | decision =>
    rw [hrole] at hadmits
    simp only [Emission.placeVertex, hrole] at hplaced
    obtain ⟨body, hbody, -⟩ := bind_eq_ok_iff.mp hplaced
    obtain ⟨cases, default, next, hcases, hnext, hdefault, -⟩ :=
      (decisionBody_eq_ok_iff hadmits).mp hbody
    exact ⟨_, .decision hrole hcases hnext hdefault⟩
  | fork =>
    simp only [Emission.placeVertex, hrole] at hplaced
    obtain ⟨body, hbody, -⟩ := bind_eq_ok_iff.mp hplaced
    obtain ⟨hne, paths, hpaths, -⟩ := forkBody_eq_ok_iff.mp hbody
    exact ⟨_, .fork hrole hne hpaths⟩
  | join =>
    simp only [Emission.placeVertex, hrole] at hplaced
    obtain ⟨body, hbody, -⟩ := bind_eq_ok_iff.mp hplaced
    obtain ⟨next, target, hnext, htarget, -⟩ := joinBody_eq_ok_iff.mp hbody
    exact ⟨_, .join hrole hnext htarget⟩
  | task task =>
    rw [placeVertex_task hrole] at hplaced
    obtain ⟨payload, hpayload, hplaced⟩ := bind_eq_ok_iff.mp hplaced
    obtain ⟨ok, hok, hplaced⟩ := bind_eq_ok_iff.mp hplaced
    obtain ⟨e'', hguard, -⟩ := bind_eq_ok_iff.mp hplaced
    obtain ⟨guards, hguards⟩ := h.exists_guards hguard
    exact ⟨_, .task hrole hpayload (okName_eq_ok_iff.mp hok) hguards⟩

/-! ## All vertices -/

/-- What the vertices become is placed, unless a name is in use. -/
theorem Holds.placeAll
    (hadmits : ∀ v ∈ vs, v.role.Admits v.parents.length (v.arcs.map Arc.condition))
    (hvs : g.Written t finish kill earlier vs more) (h : e.Holds finish (·.On earlier) els) :
    Ends (Emission.Holds · finish (·.On (earlier ++ vs)) (els ++ more))
      (Clashes (claimed finish (els ++ more)))
      (vs.foldlM (Emission.placeVertex t g finish kill) e) := by
  induction hvs generalizing e els with
  | nil =>
    rw [List.append_nil, List.append_nil]
    exact h
  | @cons earlier rest v more more' hv _ ih =>
    rw [List.foldlM_cons, List.append_cons earlier v rest, ← List.append_assoc]
    refine ((h.placeVertex (hadmits v List.mem_cons_self) hv).mono (fun _ => id)
      (Clashes.mono (claimed_sublist ..))).bind fun e' he' => ?_
    exact ih (fun u hu => hadmits u (List.mem_cons_of_mem v hu)) he'

/-- Vertices that are placed become something. -/
theorem Holds.exists_written {e' : Emission}
    (hadmits : ∀ v ∈ vs, v.role.Admits v.parents.length (v.arcs.map Arc.condition))
    (h : e.Holds finish (·.On earlier) els)
    (hplaced : vs.foldlM (Emission.placeVertex t g finish kill) e = .ok e') :
    ∃ more, g.Written t finish kill earlier vs more := by
  induction vs generalizing e els earlier with
  | nil => exact ⟨[], .nil earlier⟩
  | cons v rest ih =>
    rw [List.foldlM_cons, bind_eq_ok_iff] at hplaced
    obtain ⟨next, hnext, hrest⟩ := hplaced
    have hv := hadmits v List.mem_cons_self
    obtain ⟨more, hmore⟩ := h.exists_calls hv hnext
    obtain ⟨more', hmore'⟩ := ih (fun u hu => hadmits u (List.mem_cons_of_mem v hu))
      ((h.placeVertex hv hmore).good_of_eq hnext) hrest
    exact ⟨more ++ more', .cons hmore hmore'⟩

end Emission
end BatchFlow

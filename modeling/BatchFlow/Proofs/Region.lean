import BatchFlow.Proofs.Paths

/-!
# Regions with one way in and one way out

A region is a set of places that edges enter at one place only and leave from one place only. A path
that comes from outside passes the entry, and one that goes outside passes the exit. If every place
inside lies between two places outside, then the places inside are exactly those between the entry
and the exit.
-/

namespace BatchFlow

variable {α : Type} {edge : α → α → Prop} {inside : α → Prop} {a b z entry exit out : α}

/-- A path out of a set has an edge out of the set. -/
theorem Path.exists_crossing {p : List α} (h : Path edge a p b) (ha : inside a)
    (hb : ¬ inside b) : ∃ x y, x ∈ p ∧ y ∈ p ∧ edge x y ∧ inside x ∧ ¬ inside y := by
  induction h with
  | here => exact absurd ha hb
  | @step a c b p e h ih =>
    by_cases hc : inside c
    · obtain ⟨x, y, hx, hy, hcross⟩ := ih hc hb
      exact ⟨x, y, List.mem_cons_of_mem _ hx, List.mem_cons_of_mem _ hy, hcross⟩
    · exact ⟨a, c, List.mem_cons_self, List.mem_cons_of_mem _ h.first_mem, e, ha, hc⟩

/-- A set of places with one way in and one way out. -/
structure Region (edge : α → α → Prop) (inside : α → Prop) (entry exit : α) : Prop where
  enter : ∀ a b, edge a b → ¬ inside a → inside b → b = entry
  leave : ∀ a b, edge a b → inside a → ¬ inside b → a = exit

/-- If all edges out of a set go to one place, that place is passed on every way out. -/
theorem through_out (hout : ∀ a b, edge a b → inside a → ¬ inside b → b = out) (ha : inside a)
    (hb : ¬ inside b) : Through edge out a b := by
  intro p hp
  obtain ⟨x, y, -, hy, e, hx, hy'⟩ := hp.exists_crossing ha hb
  exact hout x y e hx hy' ▸ hy

/-- What lies before that place, coming from inside, lies inside. -/
theorem inside_of_before {rank : α → Nat}
    (hout : ∀ a b, edge a b → inside a → ¬ inside b → b = out) (hr : Ranked edge rank)
    (ha : inside a) (hfrom : Leads edge a z) (hto : Leads edge z out) (hne : z ≠ out) :
    inside z := by
  by_contra hz
  exact hne (hr.antisymm hto ((through_out hout ha hz).leads_right hfrom))

namespace Region

theorem through_entry (h : Region edge inside entry exit) (ha : ¬ inside a) (hb : inside b) :
    Through edge entry a b := by
  -- Seen from the outside, the way in is the way out.
  have hback : ∀ x y, edge x y → ¬ inside x → ¬ ¬ inside y → y = entry :=
    fun x y e hx hy => h.enter x y e hx (not_not.mp hy)
  exact through_out hback ha (not_not_intro hb)

theorem through_exit (h : Region edge inside entry exit) (ha : inside a) (hb : ¬ inside b) :
    Through edge exit a b := by
  intro p hp
  obtain ⟨x, y, hx, -, e, hx', hy⟩ := hp.exists_crossing ha hb
  exact h.leave x y e hx' hy ▸ hx

variable {rank : α → Nat} {source sink : α}

/-- What lies inside leads to the exit, and the entry leads to it. -/
theorem leads_of_inside (h : Region edge inside entry exit) (hsource : ¬ inside source)
    (hsink : ¬ inside sink) (hz : inside z) (hfrom : Leads edge source z)
    (hto : Leads edge z sink) : Leads edge entry z ∧ Leads edge z exit :=
  ⟨(h.through_entry hsource hz).leads_right hfrom, (h.through_exit hz hsink).leads_left hto⟩

/-- What lies between the entry and the exit lies inside. -/
theorem inside_of_between (h : Region edge inside entry exit) (hr : Ranked edge rank)
    (hentry : inside entry) (hexit : inside exit) (hfrom : Leads edge entry z)
    (hto : Leads edge z exit) : inside z := by
  by_contra hz
  have hback : Leads edge exit z := (h.through_exit hentry hz).leads_right hfrom
  exact hz (hr.antisymm hback hto ▸ hexit)

end Region
end BatchFlow

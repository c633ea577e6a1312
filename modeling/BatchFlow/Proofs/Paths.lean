import Mathlib.Logic.Relation
import Mathlib.Data.List.Basic
import Mathlib.Order.WellFounded

/-!
# Paths and dominance

Places with edges between them. A path lists the places it passes, both ends included, so that
"every path from here to there passes this place" is a statement about lists; dominators and
post-dominators are cases of it.

Where a theorem needs the edges to be acyclic it takes a rank that grows along them. The last
section is about branches that leave one place: `crossed_of_branches` says what it means that two of
them reach a place before they have merged.
-/

namespace BatchFlow

variable {α : Type}

/-- The places of a path from one place to another, both ends included. -/
inductive Path (edge : α → α → Prop) : α → List α → α → Prop
  | here (a : α) : Path edge a [a] a
  | step {a b c : α} {p : List α} : edge a b → Path edge b p c → Path edge a (a :: p) c

/-- Some path, perhaps one without edges, goes from one place to another. -/
abbrev Leads (edge : α → α → Prop) : α → α → Prop := Relation.ReflTransGen edge

/-- Every path from `a` to `b` passes `x`. -/
def Through (edge : α → α → Prop) (x a b : α) : Prop := ∀ p, Path edge a p b → x ∈ p

variable {edge : α → α → Prop} {a b c d m x y : α} {p q : List α}

namespace Path

theorem first_mem (h : Path edge a p b) : a ∈ p := by
  cases h <;> exact List.mem_cons_self

theorem last_mem (h : Path edge a p b) : b ∈ p := by
  induction h with
  | here => exact List.mem_cons_self
  | step _ _ ih => exact List.mem_cons_of_mem _ ih

theorem leads (h : Path edge a p b) : Leads edge a b := by
  induction h with
  | here => exact .refl
  | step e _ ih => exact .head e ih

theorem append (h : Path edge a p b) (k : Path edge b q c) :
    ∃ r, Path edge a r c ∧ ∀ x, x ∈ r ↔ x ∈ p ∨ x ∈ q := by
  induction h with
  | here a =>
    refine ⟨q, k, fun x => ⟨Or.inr, ?_⟩⟩
    rintro (hx | hx)
    · rw [List.mem_singleton.mp hx]
      exact k.first_mem
    · exact hx
  | @step a _ _ _ e _ ih =>
    obtain ⟨r, hr, hmem⟩ := ih k
    exact ⟨a :: r, .step e hr, fun x => by simp only [List.mem_cons, hmem, or_assoc]⟩

theorem split (h : Path edge a p b) (hx : x ∈ p) :
    ∃ q r, Path edge a q x ∧ Path edge x r b ∧ ∀ y, y ∈ p ↔ y ∈ q ∨ y ∈ r := by
  induction h with
  | here a =>
    rw [List.mem_singleton] at hx
    subst hx
    exact ⟨[x], [x], .here x, .here x, fun y => by simp⟩
  | @step a b c p e h ih =>
    rcases List.mem_cons.mp hx with rfl | hx
    · exact ⟨[x], x :: p, .here x, .step e h, fun y => by simp⟩
    · obtain ⟨q, r, hq, hr, hmem⟩ := ih hx
      exact ⟨a :: q, r, .step e hq, hr, fun y => by simp only [List.mem_cons, hmem, or_assoc]⟩

end Path

theorem Leads.exists_path (h : Leads edge a b) : ∃ p, Path edge a p b := by
  induction h using Relation.ReflTransGen.head_induction_on with
  | refl => exact ⟨[b], .here b⟩
  | @head a _ e _ ih =>
    obtain ⟨p, hp⟩ := ih
    exact ⟨a :: p, .step e hp⟩

/-! ### Places that every path passes -/

theorem through_first : Through edge a a b := fun _ h => h.first_mem

theorem through_last : Through edge b a b := fun _ h => h.last_mem

namespace Through

theorem leads_left (h : Through edge x a b) (hab : Leads edge a b) : Leads edge a x := by
  obtain ⟨p, hp⟩ := hab.exists_path
  obtain ⟨q, r, hq, -, -⟩ := hp.split (h p hp)
  exact hq.leads

theorem leads_right (h : Through edge x a b) (hab : Leads edge a b) : Leads edge x b := by
  obtain ⟨p, hp⟩ := hab.exists_path
  obtain ⟨q, r, -, hr, -⟩ := hp.split (h p hp)
  exact hr.leads

/-- What every path passes is passed on one side of any place on the way. -/
theorem before_or_after (h : Through edge x a c) (y : α) :
    Through edge x a y ∨ Through edge x y c := by
  by_contra hnot
  simp only [Through, not_or, not_forall] at hnot
  obtain ⟨⟨p, hp, hxp⟩, ⟨q, hq, hxq⟩⟩ := hnot
  obtain ⟨r, hr, hmem⟩ := hp.append hq
  exact ((hmem x).mp (h r hr)).elim hxp hxq

/-- From a place on the way, either the passed place lies behind or it still lies ahead. -/
theorem ahead_or_behind (h : Through edge x a c) (hay : Leads edge a y) :
    Leads edge x y ∨ Through edge x y c :=
  (h.before_or_after y).imp_left (·.leads_right hay)

/-- Seen from the other end: up to a place on the way, the passed place was met or comes later. -/
theorem met_or_later (h : Through edge x a c) (hyc : Leads edge y c) :
    Through edge x a y ∨ Leads edge y x :=
  (h.before_or_after y).imp_right (·.leads_left hyc)

theorem trans_left (h : Through edge x a b) (k : Through edge b a c) : Through edge x a c := by
  intro p hp
  obtain ⟨q, r, hq, -, hmem⟩ := hp.split (k p hp)
  exact (hmem x).mpr (.inl (h q hq))

theorem trans_right (h : Through edge x b c) (k : Through edge b a c) : Through edge x a c := by
  intro p hp
  obtain ⟨q, r, -, hr, hmem⟩ := hp.split (k p hp)
  exact (hmem x).mpr (.inr (h r hr))

end Through

/-- A place other than the first is passed on every path when it is passed from every successor. -/
theorem through_iff_of_ne (hne : a ≠ c) :
    Through edge x a c ↔ x = a ∨ ∀ b, edge a b → Through edge x b c := by
  constructor
  · intro h
    by_cases hx : x = a
    · exact .inl hx
    · refine .inr fun b e p hp => ?_
      exact (List.mem_cons.mp (h _ (.step e hp))).resolve_left hx
  · rintro (rfl | h)
    · exact through_first
    · intro p hp
      cases hp with
      | here => exact absurd rfl hne
      | step e hp => exact List.mem_cons_of_mem _ (h _ e _ hp)

/-! ### Edges with a rank -/

/-- A rank that grows along every edge. There is one exactly when the edges have no cycle. -/
def Ranked (edge : α → α → Prop) (rank : α → Nat) : Prop := ∀ a b, edge a b → rank a < rank b

namespace Ranked

variable {rank : α → Nat}

theorem eq_or_lt (hr : Ranked edge rank) (h : Leads edge a b) : a = b ∨ rank a < rank b := by
  induction h with
  | refl => exact .inl rfl
  | @tail b c _ e ih =>
    have := hr b c e
    rcases ih with rfl | ih
    · exact .inr this
    · exact .inr (by omega)

theorem le (hr : Ranked edge rank) (h : Leads edge a b) : rank a ≤ rank b := by
  rcases hr.eq_or_lt h with rfl | h <;> omega

theorem antisymm (hr : Ranked edge rank) (h : Leads edge a b) (k : Leads edge b a) : a = b := by
  rcases hr.eq_or_lt h with h | h
  · exact h
  · have := hr.le k
    omega

theorem not_leads_of_edge (hr : Ranked edge rank) (h : edge a b) : ¬ Leads edge b a := by
  intro k
  have := hr a b h
  have := hr.le k
  omega

/-- Of two places on every path, the one of smaller rank leads to the other. -/
theorem leads_of_through (hr : Ranked edge rank) (hab : Leads edge a b)
    (hx : Through edge x a b) (hy : Through edge y a b) (h : rank x ≤ rank y) :
    Leads edge x y := by
  rcases hx.ahead_or_behind (hy.leads_left hab) with h' | h'
  · exact h'
  · have hyx : Leads edge y x := h'.leads_left (hy.leads_right hab)
    rcases hr.eq_or_lt hyx with rfl | hlt
    · exact .refl
    · omega

end Ranked

/-! ### Immediate dominators and post-dominators -/

/-- The last place before `x` that every path from the source to `x` passes. -/
structure ImmediateDominator (edge : α → α → Prop) (source d x : α) : Prop where
  ne : d ≠ x
  passed : Through edge d source x
  closest : ∀ y, y ≠ x → Through edge y source x → Through edge y source d

/-- The first place after `x` that every path from `x` to the sink passes. -/
structure ImmediatePostDominator (edge : α → α → Prop) (sink m x : α) : Prop where
  ne : m ≠ x
  passed : Through edge m x sink
  closest : ∀ y, y ≠ x → Through edge y x sink → Through edge y m sink

variable {rank : α → Nat} {source sink : α}

/-- The strict dominator of greatest rank is the immediate one. -/
theorem exists_immediateDominator (hr : Ranked edge rank) (hx : Leads edge source x)
    (hne : source ≠ x) : ∃ d, ImmediateDominator edge source d x := by
  let strict : Set α := {d | d ≠ x ∧ Through edge d source x}
  obtain ⟨d, ⟨hdx, hd⟩, hmax⟩ :=
    (measure fun d => rank x - rank d).wf.has_min strict ⟨source, hne, through_first⟩
  refine ⟨d, hdx, hd, fun y hyx hy => ?_⟩
  rcases hy.met_or_later (hd.leads_right hx) with h | h
  · exact h
  · have hle := hr.le h
    have hlt := (hr.eq_or_lt (hy.leads_right hx)).resolve_left hyx
    have hnot : ¬ rank x - rank y < rank x - rank d := hmax y ⟨hyx, hy⟩
    rcases hr.eq_or_lt h with rfl | h
    · exact through_last
    · omega

theorem ImmediatePostDominator.leads (hm : ImmediatePostDominator edge sink m a)
    (ha : Leads edge a sink) (hy : Through edge y a sink) (hne : y ≠ a) : Leads edge m y :=
  (hm.closest y hne hy).leads_left (hm.passed.leads_right ha)

theorem ImmediatePostDominator.unique {m' : α} (hr : Ranked edge rank) (ha : Leads edge a sink)
    (hm : ImmediatePostDominator edge sink m a) (hm' : ImmediatePostDominator edge sink m' a) :
    m = m' :=
  hr.antisymm (hm.leads ha hm'.passed hm'.ne) (hm'.leads ha hm.passed hm.ne)

/-- A place that no dominator of its own merges at, though it has two ways in. -/
def Crossed (edge : α → α → Prop) (source sink x : α) : Prop :=
  (∃ p q, p ≠ q ∧ edge p x ∧ edge q x) ∧
    ∀ d, d ≠ x → Through edge d source x → ¬ Through edge x d sink

theorem Path.exists_last_edge (h : Path edge a p b) (hne : a ≠ b) : ∃ y ∈ p, edge y b := by
  induction h with
  | here => exact absurd rfl hne
  | @step a b c p e h ih =>
    by_cases hb : b = c
    · subst hb
      exact ⟨a, List.mem_cons_self, e⟩
    · obtain ⟨y, hy, he⟩ := ih hb
      exact ⟨y, List.mem_cons_of_mem _ hy, he⟩

theorem Leads.exists_last_edge (h : Leads edge a b) (hne : a ≠ b) :
    ∃ y, Leads edge a y ∧ edge y b := by
  rcases Relation.ReflTransGen.cases_tail h with h | ⟨y, hy, e⟩
  · exact absurd h.symm hne
  · exact ⟨y, hy, e⟩

theorem Leads.exists_first_edge (h : Leads edge a b) (hne : a ≠ b) :
    ∃ y, edge a y ∧ Leads edge y b := by
  rcases Relation.ReflTransGen.cases_head h with h | h
  · exact absurd h hne
  · exact h

/-- A dominator of a place dominates every place with an edge into it. -/
theorem Through.of_edge (h : Through edge d a x) (hne : d ≠ x) (e : edge y x) :
    Through edge d a y := by
  intro p hp
  obtain ⟨r, hr, hmem⟩ := hp.append (.step e (.here x))
  rcases (hmem d).mp (h r hr) with hd | hd
  · exact hd
  · rcases List.mem_cons.mp hd with rfl | hd
    · exact hp.last_mem
    · exact absurd (List.mem_singleton.mp hd) hne

/-- What lies ahead of `a` but not ahead of `b`. -/
def Within (edge : α → α → Prop) (a b x : α) : Prop := Leads edge a x ∧ ¬ Leads edge b x

/-- A stretch from a place to a stop behind it is the place itself, what its branches hold before
they merge, and the stretch from the merge point on. -/
theorem within_iff {s : α} (hr : Ranked edge rank) (ha : Leads edge a sink)
    (hm : ImmediatePostDominator edge sink m a) (hs : Through edge s a sink) (hsa : s ≠ a) :
    Within edge a s x ↔ x = a ∨ (∃ c, edge a c ∧ Within edge c m x) ∨ Within edge m s x := by
  have ham : Leads edge a m := hm.passed.leads_left ha
  have hms : Leads edge m s := hm.leads ha hs hsa
  constructor
  · rintro ⟨hax, hsx⟩
    by_cases hx : a = x
    · exact .inl hx.symm
    · obtain ⟨c, hc, hcx⟩ := hax.exists_first_edge hx
      by_cases hmx : Leads edge m x
      · exact .inr (.inr ⟨hmx, hsx⟩)
      · exact .inr (.inl ⟨c, hc, hcx, hmx⟩)
  · rintro (rfl | ⟨c, hc, hcx, hmx⟩ | ⟨hmx, hsx⟩)
    · exact ⟨.refl, fun h => hsa (hr.antisymm h (hs.leads_left ha))⟩
    · exact ⟨.head hc hcx, fun h => hmx (hms.trans h)⟩
    · exact ⟨ham.trans hmx, hsx⟩

theorem ImmediatePostDominator.through_of_edge (hm : ImmediatePostDominator edge sink m a)
    (hne : a ≠ sink) (h : edge a c) : Through edge m c sink :=
  ((through_iff_of_ne hne).mp hm.passed).resolve_left hm.ne c h

/-! ### Branches of one place -/

section Branches

variable {i : α}

/-- Two branches of a place that reach `x` before they have merged, with nothing on the way that
both must pass, make `x` crossed. -/
theorem crossed_of_branches (hr : Ranked edge rank) (hi : Leads edge source i)
    (hm : ImmediatePostDominator edge sink m i) (hc : edge i c) (hd : edge i d) (hcd : c ≠ d)
    (hcx : Leads edge c x) (hdx : Leads edge d x) (hmx : ¬ Leads edge m x)
    (hx : Leads edge x sink) (hfree : ∀ y, y ≠ x → Leads edge c y → ¬ Through edge y d x) :
    Crossed edge source sink x := by
  have hback : ¬ Leads edge x i := fun h => hr.not_leads_of_edge hc (hcx.trans h)
  have hix : i ≠ x := fun h => hback (h ▸ .refl)
  constructor
  -- With one way in, both branches would come through the place before `x`.
  · by_contra hone
    push Not at hone
    have huniq : ∀ p q, edge p x → edge q x → p = q := fun p q hp hq => by
      by_contra hne
      exact hone p q hne hp hq
    have hcx' : c ≠ x := by
      rintro rfl
      obtain ⟨y, hy, e⟩ := hdx.exists_last_edge (Ne.symm hcd)
      rw [huniq y i e hc] at hy
      exact hr.not_leads_of_edge hd hy
    have hdx' : d ≠ x := by
      rintro rfl
      obtain ⟨y, hy, e⟩ := hcx.exists_last_edge hcd
      rw [huniq y i e hd] at hy
      exact hr.not_leads_of_edge hc hy
    obtain ⟨y, hy, e⟩ := hcx.exists_last_edge hcx'
    refine hfree y ?_ hy fun p hp => ?_
    · rintro rfl
      exact hr.not_leads_of_edge e .refl
    · obtain ⟨z, hz, e'⟩ := hp.exists_last_edge hdx'
      rwa [huniq y z e e']
  · intro y hyx hdom hpost
    have hahead : ¬ Leads edge y i := by
      intro h
      rcases hpost.ahead_or_behind h with h | h
      · exact hback h
      · exact hmx (hm.leads (.head hc (hcx.trans hx)) h (Ne.symm hix))
    rcases hdom.ahead_or_behind hi with h | h
    · exact hahead h
    · rcases (through_iff_of_ne hix).mp h with rfl | h
      · exact hahead .refl
      · exact hfree y hyx ((h c hc).leads_left hcx) (h d hd)

/-- Where no two branches of a place meet before they merge, a place with two ways in is where
the branches of its immediate dominator merge. -/
theorem eq_of_immediateDominator (hr : Ranked edge rank) (hs : Leads edge source x)
    (hx : Leads edge x sink) (hi : ImmediateDominator edge source i x)
    (hm : ImmediatePostDominator edge sink m i)
    (hmerge : ∀ c d, edge i c → edge i d → c ≠ d → Leads edge c x → Leads edge d x →
      Leads edge m x)
    {p q : α} (hpq : p ≠ q) (hp : edge p x) (hq : edge q x)
    (hsp : Leads edge source p) (hsq : Leads edge source q) : m = x := by
  have hix : Leads edge i x := hi.passed.leads_right hs
  by_cases hmx : Leads edge m x
  · rcases hm.passed.met_or_later hx with h | h
    · by_contra hne
      have hdom := hi.closest m hne (h.trans_right hi.passed)
      have him : Leads edge i m := h.leads_left hix
      have hmi : Leads edge m i := hdom.leads_right (hi.passed.leads_left hs)
      exact hm.ne (hr.antisymm hmi him)
    · exact hr.antisymm hmx h
  · exfalso
    -- All ways from `i` to `x` begin with the same edge, so its target dominates `x`, too.
    have huniq : ∀ c d, edge i c → edge i d → Leads edge c x → Leads edge d x → c = d := by
      intro c d hc hd hcx hdx
      by_contra hne
      exact hmx (hmerge c d hc hd hne hcx hdx)
    obtain ⟨c, hc, hcx⟩ := hix.exists_first_edge hi.ne
    by_cases hcx' : c = x
    · subst hcx'
      have hpred : ∀ y, edge y c → Leads edge source y → y = i := by
        intro y e hy
        by_contra hne
        have hiy : Leads edge i y := (hi.passed.of_edge hi.ne e).leads_right hy
        obtain ⟨d, hd, hdy⟩ := hiy.exists_first_edge (Ne.symm hne)
        rw [huniq d c hd hc (hdy.tail e) .refl] at hdy
        exact hr.not_leads_of_edge e hdy
      exact hpq ((hpred p hp hsp).trans (hpred q hq hsq).symm)
    · have hpass : Through edge c i x := by
        refine (through_iff_of_ne hi.ne).mpr (.inr fun d hd r hr' => ?_)
        rw [huniq c d hc hd hcx hr'.leads]
        exact hr'.first_mem
      have hdom := hi.closest c hcx' (hpass.trans_right hi.passed)
      exact hr.not_leads_of_edge hc (hdom.leads_right (hi.passed.leads_left hs))

end Branches

end BatchFlow

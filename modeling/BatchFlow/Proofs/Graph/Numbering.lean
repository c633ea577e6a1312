import BatchFlow.Proofs.Graph.Names
import Mathlib.Order.Bounds.Defs

/-!
# Names given out in turn

A supply looks for a name within a bound. It could as well try one number of a stem after the other
for as long as the names are taken: such a search always ends, and with the same name. So the names
that a row of calls gives out can be told without a supply and without a bound. Each has the least
number after the last one of its stem whose name is neither taken from the start nor given out
before, whatever stems the calls in between were for.
-/

namespace BatchFlow

open NameSupply

/-- A name that was given out, told by its stem and its number. -/
structure Issue where
  stem : Stem
  number : Nat

def Issue.name (i : Issue) : String := nameAt i.stem i.number

/-- The numbers given out for a stem. -/
def numbersOf (issues : List Issue) (stem : Stem) : List Nat :=
  (issues.filter (·.stem = stem)).map Issue.number

/-- The number given out last for a stem, zero before the first. -/
def lastNumber (issues : List Issue) (stem : Stem) : Nat := (numbersOf issues stem).getLastD 0

/-- The numbers that may come next for a stem. -/
def Eligible (taken : List String) (issues : List Issue) (stem : Stem) : Set Nat :=
  {k | lastNumber issues stem < k ∧ nameAt stem k ∉ taken ∧ nameAt stem k ∉ issues.map Issue.name}

/-- Names given out one after the other, each with the least number that may come next. -/
inductive InTurn (taken : List String) : List Issue → Prop
  | none : InTurn taken []
  | more {issues : List Issue} {i : Issue} : InTurn taken issues →
      IsLeast (Eligible taken issues i.stem) i.number → InTurn taken (issues ++ [i])

theorem numbersOf_concat (issues : List Issue) (i : Issue) (stem : Stem) :
    numbersOf (issues ++ [i]) stem =
      if i.stem = stem then numbersOf issues stem ++ [i.number] else numbersOf issues stem := by
  unfold numbersOf
  by_cases h : i.stem = stem <;> simp [h]

theorem lastNumber_concat (issues : List Issue) (i : Issue) (stem : Stem) :
    lastNumber (issues ++ [i]) stem =
      if i.stem = stem then i.number else lastNumber issues stem := by
  unfold lastNumber
  rw [numbersOf_concat]
  by_cases h : i.stem = stem <;> simp [h]

namespace InTurn

variable {taken : List String} {issues : List Issue}

theorem le_lastNumber (h : InTurn taken issues) {stem : Stem} {k : Nat}
    (hk : k ∈ numbersOf issues stem) : k ≤ lastNumber issues stem := by
  induction h with
  | none => cases hk
  | @more issues i _ hleast ih =>
    rw [numbersOf_concat] at hk
    rw [lastNumber_concat]
    by_cases hstem : i.stem = stem
    · rw [if_pos hstem] at hk ⊢
      rcases List.mem_append.mp hk with hk | hk
      · have hlast : lastNumber issues i.stem < i.number := hleast.1.1
        rw [hstem] at hlast
        have hle := ih hk
        omega
      · exact Nat.le_of_eq (List.mem_singleton.mp hk)
    · rw [if_neg hstem] at hk ⊢
      exact ih hk

/-- The numbers of a stem go up. -/
theorem numbersOf_sorted (h : InTurn taken issues) (stem : Stem) :
    (numbersOf issues stem).Pairwise (· < ·) := by
  induction h with
  | none => exact List.Pairwise.nil
  | @more issues i h hleast ih =>
    rw [numbersOf_concat]
    by_cases hstem : i.stem = stem
    · rw [if_pos hstem, List.pairwise_append]
      refine ⟨ih, List.pairwise_singleton .., fun k hk x hx => ?_⟩
      have hlast : lastNumber issues i.stem < i.number := hleast.1.1
      rw [hstem] at hlast
      have hle := h.le_lastNumber hk
      rw [List.mem_singleton.mp hx]
      omega
    · rw [if_neg hstem]
      exact ih

/-- No name is given out twice, not for another stem either, and none was taken. -/
theorem names_nodup (h : InTurn taken issues) :
    (issues.map Issue.name).Nodup ∧ ∀ i ∈ issues, i.name ∉ taken := by
  induction h with
  | none => exact ⟨List.nodup_nil, fun i hi => by cases hi⟩
  | @more issues i _ hleast ih =>
    constructor
    · rw [List.map_append, List.map_singleton, ← List.concat_eq_append]
      exact ih.1.concat hleast.1.2.2
    · intro j hj
      rcases List.mem_append.mp hj with hj | hj
      · exact ih.2 j hj
      · rw [List.mem_singleton.mp hj]
        exact hleast.1.2.1

end InTurn

namespace NameSupply

/-! ## The search without a bound -/

/-- The supply that has come to a number of a stem. -/
def raised (s : NameSupply) (stem : Stem) (number : Nat) : NameSupply :=
  { s with last := fun t => if t = stem then number else s.last t }

/-- The supply that has given out the name at a number. -/
def given (s : NameSupply) (stem : Stem) (number : Nat) : NameSupply :=
  { s.raised stem number with taken := nameAt stem number :: s.taken }

/-- Tries the next number of a stem, and gives out its name if that is free. -/
def tryNext (s : NameSupply) (stem : Stem) : Option String × NameSupply :=
  let number := s.last stem + 1
  if s.taken.contains (nameAt stem number) then (none, s.raised stem number)
  else (some (nameAt stem number), s.given stem number)

/-- The search that tries until a name is given out, with its answer. One without end has none. -/
inductive Finds : NameSupply → Stem → String × NameSupply → Prop
  | free {s s' : NameSupply} {stem : Stem} {name : String} :
      s.tryNext stem = (some name, s') → Finds s stem (name, s')
  | taken {s s' : NameSupply} {stem : Stem} {answer : String × NameSupply} :
      s.tryNext stem = (none, s') → Finds s' stem answer → Finds s stem answer

/-- The calls for some stems, one after the other, each of them with a search that ends. -/
inductive FindsAll : NameSupply → List Stem → List String × NameSupply → Prop
  | none (s : NameSupply) : FindsAll s [] ([], s)
  | more {s s' s'' : NameSupply} {stem : Stem} {stems : List Stem} {name : String}
      {names : List String} : Finds s stem (name, s') → FindsAll s' stems (names, s'') →
      FindsAll s (stem :: stems) (name :: names, s'')

/-- The names for some stems, one after the other. -/
def nextAll (s : NameSupply) : List Stem → List String × NameSupply
  | [] => ([], s)
  | stem :: stems =>
      let (name, s) := s.next stem
      let (names, s) := s.nextAll stems
      (name :: names, s)

theorem raised_given (s : NameSupply) (stem : Stem) (j k : Nat) :
    (s.raised stem j).given stem k = s.given stem k := by
  have hlast : ((s.raised stem j).raised stem k).last = (s.raised stem k).last := by
    funext t
    by_cases ht : t = stem <;> simp [raised, ht]
  show NameSupply.mk _ ((s.raised stem j).raised stem k).last = _
  rw [hlast]
  rfl

theorem next_eq (s : NameSupply) (stem : Stem) :
    let number := firstFree s.taken stem s.taken.length (s.last stem + 1)
    s.next stem = (nameAt stem number, s.given stem number) := rfl

theorem tryNext_of_taken {s : NameSupply} {stem : Stem}
    (h : nameAt stem (s.last stem + 1) ∈ s.taken) :
    s.tryNext stem = (none, s.raised stem (s.last stem + 1)) :=
  if_pos (List.contains_iff_mem.mpr h)

theorem tryNext_of_free {s : NameSupply} {stem : Stem}
    (h : nameAt stem (s.last stem + 1) ∉ s.taken) : s.tryNext stem =
      (some (nameAt stem (s.last stem + 1)), s.given stem (s.last stem + 1)) :=
  if_neg fun hc => h (List.contains_iff_mem.mp hc)

/-- A search has one answer. -/
theorem Finds.unique {s : NameSupply} {stem : Stem} {answer answer' : String × NameSupply}
    (h : Finds s stem answer) (h' : Finds s stem answer') : answer = answer' := by
  induction h with
  | free htry =>
    cases h' with
    | free htry' =>
      cases htry.symm.trans htry'
      rfl
    | taken htry' _ => cases htry.symm.trans htry'
  | taken htry _ ih =>
    cases h' with
    | free htry' => cases htry.symm.trans htry'
    | taken htry' hrest =>
      cases htry.symm.trans htry'
      exact ih hrest

/-- Where a bounded search comes to a free name, the search without a bound does. -/
theorem finds_of_firstFree {s : NameSupply} {stem : Stem} {bound k : Nat}
    (hk : firstFree s.taken stem bound (s.last stem + 1) = k) (hfree : nameAt stem k ∉ s.taken) :
    Finds s stem (nameAt stem k, s.given stem k) := by
  induction bound generalizing s with
  | zero =>
    subst hk
    exact .free (tryNext_of_free hfree)
  | succ bound ih =>
    unfold firstFree at hk
    by_cases htaken : nameAt stem (s.last stem + 1) ∈ s.taken
    · rw [if_pos (List.contains_iff_mem.mpr htaken)] at hk
      have hlast : (s.raised stem (s.last stem + 1)).last stem = s.last stem + 1 := if_pos rfl
      rw [← hlast] at hk
      have hrest := ih (s := s.raised stem (s.last stem + 1)) hk hfree
      rw [raised_given] at hrest
      exact .taken (tryNext_of_taken htaken) hrest
    · rw [if_neg fun hc => htaken (List.contains_iff_mem.mp hc)] at hk
      subst hk
      exact .free (tryNext_of_free htaken)

/-- The search without a bound ends, and with the answer of the bounded one. -/
theorem finds_iff {s : NameSupply} {stem : Stem} {answer : String × NameSupply} :
    Finds s stem answer ↔ answer = s.next stem := by
  have hnext : Finds s stem (s.next stem) :=
    finds_of_firstFree rfl (firstFree_free s.taken stem (s.last stem + 1))
  constructor
  · intro h
    exact h.unique hnext
  · intro h
    rw [h]
    exact hnext

theorem findsAll_iff {s : NameSupply} {stems : List Stem} {answer : List String × NameSupply} :
    FindsAll s stems answer ↔ answer = s.nextAll stems := by
  induction stems generalizing s answer with
  | nil =>
    constructor
    · intro h
      cases h
      rfl
    · intro h
      rw [h]
      exact .none s
  | cons stem stems ih =>
    constructor
    · intro h
      cases h with
      | more hfirst hrest =>
        have hname := finds_iff.mp hfirst
        have hnames := ih.mp hrest
        simp only [nextAll, ← hname, ← hnames]
    · intro h
      rw [h]
      exact .more (finds_iff.mpr rfl) (ih.mpr rfl)

/-! ## What a row of calls gives out -/

/-- The search passes no number but those of taken names. -/
theorem firstFree_least (taken : List String) (stem : Stem) (bound number : Nat) :
    number ≤ firstFree taken stem bound number ∧
      ∀ k, number ≤ k → k < firstFree taken stem bound number → nameAt stem k ∈ taken := by
  induction bound generalizing number with
  | zero =>
    refine ⟨Nat.le_refl number, fun k hle hlt => ?_⟩
    exact absurd hlt (Nat.not_lt_of_le hle)
  | succ bound ih =>
    unfold firstFree
    by_cases htaken : nameAt stem number ∈ taken
    · rw [if_pos (List.contains_iff_mem.mpr htaken)]
      obtain ⟨hle, hall⟩ := ih (number + 1)
      refine ⟨by omega, fun k hk hlt => ?_⟩
      by_cases hnumber : k = number
      · rw [hnumber]
        exact htaken
      · exact hall k (by omega) hlt
    · rw [if_neg fun hc => htaken (List.contains_iff_mem.mp hc)]
      refine ⟨Nat.le_refl number, fun k hle hlt => ?_⟩
      exact absurd hlt (Nat.not_lt_of_le hle)

/-- The supply after names were given out, where these names were taken at first. -/
structure After (taken : List String) (issues : List Issue) (s : NameSupply) : Prop where
  mem_taken_iff : ∀ name, name ∈ s.taken ↔ name ∈ taken ∨ name ∈ issues.map Issue.name
  last_eq : ∀ stem, s.last stem = lastNumber issues stem

theorem after_start (taken : List String) : After taken [] (start taken) :=
  ⟨by simp [start], fun _ => rfl⟩

/-- One call gives out the name of the least number that may come next. -/
theorem After.next {taken : List String} {issues : List Issue} {s : NameSupply}
    (h : After taken issues s) (stem : Stem) :
    ∃ i : Issue, i.stem = stem ∧ (s.next stem).1 = i.name ∧
      IsLeast (Eligible taken issues stem) i.number ∧
      After taken (issues ++ [i]) (s.next stem).2 := by
  obtain ⟨k, hk⟩ : ∃ k, k = firstFree s.taken stem s.taken.length (s.last stem + 1) := ⟨_, rfl⟩
  have hfree : nameAt stem k ∉ s.taken := hk ▸ firstFree_free s.taken stem (s.last stem + 1)
  obtain ⟨hle, hpassed⟩ := hk ▸ firstFree_least s.taken stem s.taken.length (s.last stem + 1)
  rw [next_eq, ← hk]
  refine ⟨⟨stem, k⟩, rfl, rfl, ⟨?_, ?_⟩, ?_, ?_⟩
  · rw [h.mem_taken_iff, not_or] at hfree
    rw [h.last_eq] at hle
    exact ⟨hle, hfree⟩
  -- A smaller number that may come next has a free name, but the search passed taken ones only.
  · intro j hj
    obtain ⟨hlast, hnew⟩ := hj
    rw [← not_or, ← h.mem_taken_iff] at hnew
    rw [← h.last_eq] at hlast
    by_contra hlt
    exact hnew (hpassed j hlast (Nat.lt_of_not_le hlt))
  · intro name
    show name ∈ nameAt stem k :: s.taken ↔ _
    rw [List.mem_cons, h.mem_taken_iff, List.map_append, List.mem_append, List.map_singleton,
      List.mem_singleton]
    exact or_comm.trans or_assoc
  · intro t
    show (if t = stem then k else s.last t) = _
    rw [lastNumber_concat, ← h.last_eq]
    simp only [eq_comm]

theorem After.nextAll {taken : List String} {issues : List Issue} {s : NameSupply}
    (h : After taken issues s) (hturn : InTurn taken issues) (stems : List Stem) :
    ∃ more : List Issue, more.map Issue.stem = stems ∧ (s.nextAll stems).1 = more.map Issue.name ∧
      InTurn taken (issues ++ more) := by
  induction stems generalizing issues s with
  | nil => exact ⟨[], rfl, rfl, by rwa [List.append_nil]⟩
  | cons stem stems ih =>
    obtain ⟨i, hstem, hname, hleast, hafter⟩ := h.next stem
    rw [← hstem] at hleast
    obtain ⟨more, hstems, hnames, hmore⟩ := ih hafter (.more hturn hleast)
    refine ⟨i :: more, ?_, ?_, ?_⟩
    · rw [List.map_cons, hstem, hstems]
    · rw [List.map_cons, ← hname, ← hnames]
      rfl
    · rw [List.append_assoc] at hmore
      exact hmore

/-- Whatever names are taken at first, and for whatever stems calls are made in turn: the search of
each call ends, and it gives out the least number that may come next. So the names are new and all
different, and the numbers of each stem go up. -/
theorem issued_in_turn (taken : List String) (stems : List Stem) :
    ∃ issues : List Issue, issues.map Issue.stem = stems ∧ InTurn taken issues ∧
      (∀ answer, FindsAll (start taken) stems answer ↔ answer = (start taken).nextAll stems) ∧
      ((start taken).nextAll stems).1 = issues.map Issue.name ∧
      (issues.map Issue.name).Nodup ∧ (∀ i ∈ issues, i.name ∉ taken) ∧
      ∀ stem, (numbersOf issues stem).Pairwise (· < ·) := by
  obtain ⟨issues, hstems, hnames, hturn⟩ := (after_start taken).nextAll .none stems
  rw [List.nil_append] at hturn
  obtain ⟨hnodup, hnew⟩ := hturn.names_nodup
  exact ⟨issues, hstems, hturn, fun _ => findsAll_iff, hnames, hnodup, hnew, hturn.numbersOf_sorted⟩

/-- Two stems whose texts begin alike, and taken names of both in between. -/
example : ((start ["decision_1", "decision_join_2", "decision_3"]).nextAll
    [.decision, .decisionJoin, .decision, .decisionJoin, .fork]).1 =
      ["decision_2", "decision_join_1", "decision_4", "decision_join_3", "fork_1"] := by
  decide

end NameSupply
end BatchFlow

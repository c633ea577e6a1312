import BatchFlow.Lowering
import Mathlib.Data.List.Nodup
import Mathlib.Data.List.Perm.Subperm

/-!
# Generated names are new

The names of a stem are all different, so among one more of them than there are taken names one is
free, and the bounded search finds it. A generated name has an underscore, which none of the
reserved names has.
-/

namespace BatchFlow

/-- A decimal tells its number. -/
theorem eq_of_repr_eq {m n : Nat} (h : m.repr = n.repr) : m = n := by
  rw [← Nat.ofDigitChars_ten_toDigits (n := m), ← Nat.ofDigitChars_ten_toDigits (n := n),
    ← Nat.toList_repr, ← Nat.toList_repr, h]

namespace NameSupply

theorem nameAt_injective {stem : Stem} {m n : Nat} (h : nameAt stem m = nameAt stem n) : m = n :=
  eq_of_repr_eq ((String.append_right_inj _).mp h)

theorem underscore_mem_nameAt (stem : Stem) (n : Nat) : '_' ∈ (nameAt stem n).toList := by
  simp [nameAt]

theorem nameAt_not_reserved (stem : Stem) (n : Nat) :
    nameAt stem n ∉ Workflow.reservedNames := by
  intro hmem
  have hplain : ∀ name ∈ Workflow.reservedNames, '_' ∉ name.toList := by decide
  exact hplain _ hmem (underscore_mem_nameAt stem n)

/-- If the search ends at a taken name, it passed nothing but taken names. -/
theorem taken_of_firstFree {taken : List String} {stem : Stem} {bound number : Nat}
    (h : nameAt stem (firstFree taken stem bound number) ∈ taken) :
    ∀ k ≤ bound, nameAt stem (number + k) ∈ taken := by
  induction bound generalizing number with
  | zero =>
    intro k hk
    rw [Nat.le_zero.mp hk]
    exact h
  | succ bound ih =>
    unfold firstFree at h
    by_cases htaken : nameAt stem number ∈ taken
    · rw [if_pos (List.contains_iff_mem.mpr htaken)] at h
      intro k hk
      cases k with
      | zero => exact htaken
      | succ k =>
        have hnext := ih h k (Nat.le_of_succ_le_succ hk)
        rwa [Nat.add_right_comm, Nat.add_assoc] at hnext
    · rw [if_neg fun hc => htaken (List.contains_iff_mem.mp hc)] at h
      exact absurd h htaken

theorem firstFree_free (taken : List String) (stem : Stem) (number : Nat) :
    nameAt stem (firstFree taken stem taken.length number) ∉ taken := by
  intro h
  have hall := taken_of_firstFree h
  let names := (List.range (taken.length + 1)).map fun k => nameAt stem (number + k)
  have hnodup : names.Nodup := by
    refine List.Nodup.map (fun j k hjk => ?_) List.nodup_range
    exact Nat.add_left_cancel (nameAt_injective hjk)
  have hsub : names ⊆ taken := by
    intro name hname
    obtain ⟨k, hk, rfl⟩ := List.mem_map.mp hname
    exact hall k (Nat.le_of_lt_succ (List.mem_range.mp hk))
  have hlen := (List.subperm_of_subset hnodup hsub).length_le
  simp only [names, List.length_map, List.length_range] at hlen
  exact Nat.lt_irrefl _ hlen

/-- The next name is not taken, and it is not reserved. -/
theorem next_new (s : NameSupply) (stem : Stem) :
    (s.next stem).1 ∉ s.taken ∧ (s.next stem).1 ∉ Workflow.reservedNames :=
  ⟨firstFree_free s.taken stem _, nameAt_not_reserved stem _⟩

end NameSupply
end BatchFlow

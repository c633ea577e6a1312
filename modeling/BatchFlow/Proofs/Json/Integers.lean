import BatchFlow.Json.Printer
import BatchFlow.Json.Reader

/-!
# Reading integers

An integer is written with a sign if it is negative and with no zero in front. The reader takes the
digits for its own as far as they go, so it has to be known that what follows does not go on with
them. An integer of 64 bits fits the significand, so it is finite without any rounding.
-/

namespace BatchFlow
namespace Json

/-- No number goes on with these characters. -/
def EndsNumber (cs : List Char) : Prop :=
  ∀ c ∈ cs.head?, c.isDigit = false ∧ c ≠ '.' ∧ c ≠ 'e' ∧ c ≠ 'E'

/-! ### Digits -/

theorem digits?_append {ds rest : List Char} (hds : ∀ c ∈ ds, c.isDigit = true) (hne : ds ≠ [])
    (hrest : EndsNumber rest) : digits? (ds ++ rest) = some (ds, rest) := by
  have htake : rest.takeWhile Char.isDigit = [] := by
    cases rest with
    | nil => rfl
    | cons c rest => simp [(hrest c rfl).1]
  have hdrop : rest.dropWhile Char.isDigit = rest := by
    cases rest with
    | nil => rfl
    | cons c rest => simp [(hrest c rfl).1]
  rw [digits?, List.takeWhile_append_of_pos hds, List.dropWhile_append_of_pos hds, htake, hdrop,
    List.append_nil]
  cases ds with
  | nil => exact absurd rfl hne
  | cons d ds => rfl

theorem isDigit_of_mem_toDigits {n : Nat} {c : Char} (h : c ∈ Nat.toDigits 10 n) :
    c.isDigit = true :=
  Nat.isDigit_of_mem_toDigits (by decide) (by decide) h

/-- Only zero is written with a zero in front. -/
theorem head?_toDigits {n : Nat} (h : 0 < n) : (Nat.toDigits 10 n).head? ≠ some '0' := by
  induction n using Nat.strongRecOn with
  | ind n ih =>
    rcases Nat.lt_or_ge n 10 with hlt | hge
    · rw [Nat.toDigits_of_lt_base hlt, List.head?_cons, ne_eq, Option.some.injEq,
        Nat.digitChar_eq_zero]
      omega
    · have hhead := ih (n / 10) (by omega) (by omega)
      rw [Nat.toDigits_of_base_le (by decide) hge, List.head?_append]
      cases hds : Nat.toDigits 10 (n / 10) with
      | nil => exact absurd hds Nat.toDigits_ne_nil
      | cons d ds =>
        rw [hds] at hhead
        exact hhead

theorem whole?_toDigits (n : Nat) {rest : List Char} (hrest : EndsNumber rest) :
    whole? (Nat.toDigits 10 n ++ rest) = some (Nat.toDigits 10 n, rest) := by
  rcases Nat.eq_zero_or_pos n with rfl | hpos
  · rfl
  · have hdigits : ∀ c ∈ Nat.toDigits 10 n, c.isDigit = true := fun _ => isDigit_of_mem_toDigits
    have hread := digits?_append hdigits Nat.toDigits_ne_nil hrest
    have hhead := head?_toDigits hpos
    cases hds : Nat.toDigits 10 n with
    | nil => exact absurd hds Nat.toDigits_ne_nil
    | cons d ds =>
      rw [hds] at hread hhead
      rw [← hread, List.cons_append, whole?]
      rintro _ heq
      cases heq
      exact hhead rfl

theorem digitsValue_toDigits (n : Nat) : Numeral.digitsValue (Nat.toDigits 10 n) = n := by
  refine Eq.trans ?_ (Nat.ofDigitChars_ten_toDigits (n := n))
  rw [Nat.ofDigitChars_eq_foldl]
  rfl

/-! ### Finite integers -/

namespace Numeral

theorem le_foldl_digits (s : Nat) (ds : List Char) :
    s ≤ ds.foldl (fun n d => 10 * n + digitValue d) s := by
  induction ds generalizing s with
  | nil => exact Nat.le_refl s
  | cons d ds ih =>
    have hstep := ih (10 * s + digitValue d)
    rw [List.foldl_cons]
    omega

/-- A significand absorbs digits if their value fits. -/
theorem absorb_eq {s : Nat} {ds : List Char}
    (h : ds.foldl (fun n d => 10 * n + digitValue d) s < significandLimit) :
    absorb s ds = (ds.foldl (fun n d => 10 * n + digitValue d) s, []) := by
  induction ds generalizing s with
  | nil => rfl
  | cons d ds ih =>
    rw [List.foldl_cons] at h
    have hfits := Nat.lt_of_le_of_lt (le_foldl_digits _ ds) h
    rw [absorb, if_pos hfits, ih h, List.foldl_cons]

/-- The numeral of an integer. -/
def ofInt (n : Int) : Numeral := ⟨decide (n < 0), Nat.toDigits 10 n.natAbs, none, none⟩

theorem magnitude_ofInt (n : Int) : (ofInt n).magnitude = n.natAbs :=
  digitsValue_toDigits n.natAbs

theorem isFinite_ofInt {n : Int} (h : n.natAbs < significandLimit) : (ofInt n).isFinite = true := by
  have habsorb : absorb 0 (ofInt n).whole = (n.natAbs, []) := by
    have hvalue := magnitude_ofInt n
    unfold magnitude digitsValue at hvalue
    rw [absorb_eq (by rwa [hvalue]), hvalue]
  have hdecompose : (ofInt n).decompose = (n.natAbs, 0) := by
    rw [decompose, habsorb]
    rfl
  simp [isFinite, hdecompose]

theorem toJson_ofInt (n : Int) : (ofInt n).toJson = .int n := by
  have hjson : (ofInt n).toJson =
      if decide (n < 0) then
        if (ofInt n).magnitude = 0 then .decimal (String.ofList (ofInt n).chars)
        else .int (-((ofInt n).magnitude : Int))
      else .int (ofInt n).magnitude := rfl
  rw [hjson, magnitude_ofInt]
  by_cases hneg : n < 0
  · rw [if_pos (by simpa using hneg), if_neg (by omega)]
    congr 1
    omega
  · rw [if_neg (by simpa using hneg)]
    congr 1
    omega

end Numeral

/-! ### Written integers -/

theorem toList_toString_int (n : Int) : (toString n).toList =
    (if n < 0 then ['-'] else []) ++ Nat.toDigits 10 n.natAbs := by
  cases n with
  | ofNat m =>
    have h : ¬ (Int.ofNat m < 0) := by simp
    rw [if_neg h]
    exact Nat.toList_repr
  | negSucc m =>
    rw [if_pos (Int.negSucc_lt_zero m)]
    show ("-" ++ Nat.repr (m + 1)).toList = _
    rw [String.toList_append, Nat.toList_repr]
    rfl

/-- The first character of a number is a sign or a digit. -/
theorem exists_toString_int (n : Int) :
    ∃ c cs, (toString n).toList = c :: cs ∧ (c = '-' ∨ c.isDigit = true) := by
  rw [toList_toString_int]
  by_cases hneg : n < 0
  · rw [if_pos hneg]
    exact ⟨_, _, rfl, .inl rfl⟩
  · rw [if_neg hneg]
    cases hds : Nat.toDigits 10 n.natAbs with
    | nil => exact absurd hds Nat.toDigits_ne_nil
    | cons d ds =>
      exact ⟨d, ds, rfl, .inr (isDigit_of_mem_toDigits (hds ▸ List.mem_cons_self))⟩

theorem sign_toString_int (n : Int) (rest : List Char) :
    sign ((toString n).toList ++ rest) = (decide (n < 0), Nat.toDigits 10 n.natAbs ++ rest) := by
  rw [toList_toString_int]
  by_cases hneg : n < 0
  · simp [hneg, sign]
  · cases hds : Nat.toDigits 10 n.natAbs with
    | nil => exact absurd hds Nat.toDigits_ne_nil
    | cons d ds =>
      have hdigit : d.isDigit = true := isDigit_of_mem_toDigits (hds ▸ List.mem_cons_self)
      simp only [hneg, if_false, List.nil_append, List.cons_append, decide_false]
      rw [sign]
      rintro _ heq
      cases heq
      cases hdigit

theorem numeral?_toString_int (n : Int) {rest : List Char} (hrest : EndsNumber rest) :
    numeral? ((toString n).toList ++ rest) = some (.ofInt n, rest) := by
  have hfraction : fraction? rest = some (none, rest) := by
    cases rest with
    | nil => rfl
    | cons c rest =>
      have := hrest c rfl
      simp [fraction?, this]
  have hexponent : exponent? rest = some (none, rest) := by
    cases rest with
    | nil => rfl
    | cons c rest =>
      have := hrest c rfl
      simp [exponent?, this]
  simp only [numeral?, sign_toString_int, whole?_toDigits _ hrest, hfraction, hexponent, bind,
    Option.bind, pure, Numeral.ofInt]

/-- An integer of 64 bits is read back, with what follows it. -/
theorem number?_toString_int {n : Int} (h : n.natAbs < Numeral.significandLimit) {rest : List Char}
    (hrest : EndsNumber rest) : number? .exact ((toString n).toList ++ rest) = some (.int n, rest) := by
  rw [number?, numeral?_toString_int n hrest]
  simp [Numeral.isFinite_ofInt h, Numeral.toJson_ofInt]

end Json
end BatchFlow

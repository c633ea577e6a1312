import BatchFlow.Json

/-!
# Written numbers

A number that is read for its value has to be finite as a double. Its digits are gathered into a
significand of at most 64 bits and a power of ten, each of the two is rounded to a double, and the
product of the two doubles must not overflow. `Numeral.isFinite` decides this in whole numbers:
to round a whole number to 53 significant bits takes a quotient, a remainder and a comparison.

The two roundings are part of the rule. Near the largest double they settle which numbers are
finite, and the value of the written digits alone does not.
-/

namespace BatchFlow
namespace Json

/-- The parts of a written number. -/
structure Numeral where
  negative : Bool
  whole : List Char
  fraction : Option (List Char)
  /-- The sign character of the exponent, if it has one, and its digits. -/
  exponent : Option (Option Char × List Char)

namespace Numeral

def digitValue (d : Char) : Nat := d.toNat - '0'.toNat

def digitsValue (ds : List Char) : Nat :=
  ds.foldl (fun n d => 10 * n + digitValue d) 0

def optionChars : Option Char → List Char
  | none => []
  | some c => [c]

def fractionDigits (n : Numeral) : List Char :=
  match n.fraction with
  | none => []
  | some ds => ds

/-- The digits of an integer as a whole number. -/
def magnitude (n : Numeral) : Nat := digitsValue n.whole

def chars (n : Numeral) : List Char :=
  (if n.negative then ['-'] else []) ++ n.whole ++
    (match n.fraction with
      | none => []
      | some ds => '.' :: ds) ++
    (match n.exponent with
      | none => []
      | some (sign, ds) => 'e' :: optionChars sign ++ ds)

/-- An integer has neither fraction nor exponent; a negative zero is not one. -/
def toJson (n : Numeral) : Json :=
  match n.fraction, n.exponent with
  | none, none =>
      if n.negative then
        if n.magnitude = 0 then .decimal (String.ofList n.chars) else .int (-(n.magnitude : Int))
      else .int n.magnitude
  | _, _ => .decimal (String.ofList n.chars)

/-! ### Finite numbers -/

/-- The first whole number that a significand cannot hold. -/
def significandLimit : Nat := Nat.pow 2 64

/-- Digits are appended to a significand while it can hold them. The first one that it cannot
hold is left over, with all that follow. -/
def absorb (s : Nat) : List Char → Nat × List Char
  | [] => (s, [])
  | d :: ds =>
      if 10 * s + digitValue d < significandLimit then absorb (10 * s + digitValue d) ds
      else (s, d :: ds)

/-- The exponent as written. -/
def writtenExponent (n : Numeral) : Int :=
  match n.exponent with
  | none => 0
  | some (some '-', ds) => -(digitsValue ds : Int)
  | some (_, ds) => digitsValue ds

/-- The significand and the power of ten that it is multiplied with. A digit left over before the
point counts as a zero, a digit left over behind it is dropped. After digits are left over before
the point, a small digit behind it may still fit. -/
def decompose (n : Numeral) : Nat × Int :=
  let (s, dropped) := absorb 0 n.whole
  let (s, ignored) := absorb s n.fractionDigits
  let absorbed : Int := n.fractionDigits.length - ignored.length
  (s, dropped.length - absorbed + n.writtenExponent)

/-- The multiple of the unit nearest to a number, an even multiple if two are equally near. -/
def roundTo (unit n : Nat) : Nat :=
  let q := n / unit
  let r := n % unit
  if 2 * r < unit ∨ (2 * r = unit ∧ q % 2 = 0) then q * unit else (q + 1) * unit

/-- A whole number rounded to the 53 significant bits of a double. -/
def roundDouble (n : Nat) : Nat :=
  roundTo (Nat.pow 2 (n.log2 + 1 - 53)) n

/-- The middle between the largest double and the next power of two: from here on, rounding to a
double overflows. -/
def doubleLimit : Nat := Nat.pow 2 1024 - Nat.pow 2 970

/-- The largest power of ten that is a double. -/
def maxPower : Int := 308

/-- Whether the number is finite as a double. A quotient by a power of ten always is. -/
def isFinite (n : Numeral) : Bool :=
  let (s, e) := n.decompose
  if s = 0 ∨ e ≤ 0 then true
  else if maxPower < e then false
  else roundDouble s * roundDouble (Nat.pow 10 e.toNat) < doubleLimit

end Numeral
end Json
end BatchFlow

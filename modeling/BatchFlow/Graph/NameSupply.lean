/-!
# Names for generated vertices

A generated vertex is named by a stem and a number. For each stem the numbers go up, and a number
whose name is taken is passed over. The search for the next number is bounded by the count of taken
names: among that many names and one more, all different, one is free.
-/

namespace BatchFlow

/-- What generated names start with. -/
inductive Stem where
  | fork
  | join
  | decision
  | decisionJoin
  deriving DecidableEq

def Stem.text : Stem → String
  | fork => "fork"
  | join => "join"
  | decision => "decision"
  | decisionJoin => "decision_join"

/-- The names that are taken, and the number last given out for each stem. The numbers are a
function because only their values at a stem ever matter. -/
structure NameSupply where
  taken : List String
  last : Stem → Nat

namespace NameSupply

/-- A supply that has given out nothing. -/
def start (taken : List String) : NameSupply := ⟨taken, fun _ => 0⟩

def nameAt (stem : Stem) (number : Nat) : String :=
  stem.text ++ "_" ++ toString number

/-- The first number from a given one on whose name is free, after at most a bound of taken ones. -/
def firstFree (taken : List String) (stem : Stem) : Nat → Nat → Nat
  | 0, number => number
  | bound + 1, number =>
      if taken.contains (nameAt stem number) then firstFree taken stem bound (number + 1)
      else number

/-- The next name for a stem. It counts as taken from then on. -/
def next (s : NameSupply) (stem : Stem) : String × NameSupply :=
  let number := firstFree s.taken stem s.taken.length (s.last stem + 1)
  let name := nameAt stem number
  (name, { taken := name :: s.taken
           last := fun t => if t = stem then number else s.last t })

end NameSupply
end BatchFlow

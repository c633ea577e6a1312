/-!
# Edits of a list

What a builder does to a list of values: append one, remove one, remove all. Removing a value
takes out its first occurrence and is no error when there is none.
-/

namespace BatchFlow

inductive ListEdit (α : Type) where
  | append (value : α)
  | remove (value : α)
  | clear
  deriving DecidableEq

def ListEdit.apply {α : Type} [DecidableEq α] (xs : List α) : ListEdit α → List α
  | append value => xs ++ [value]
  | remove value => xs.erase value
  | clear => []

end BatchFlow

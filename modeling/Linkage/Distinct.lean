/-! Lists put into rising order of a textual key, one element for each key. -/
namespace Linkage

variable {α : Type}

/-- What follows `x`, without the elements whose key repeats the one before. -/
def dropRepeatsAfter (key : α → String) : α → List α → List α
  | _, [] => []
  | x, y :: rest => if key y = key x then dropRepeatsAfter key x rest else y :: dropRepeatsAfter key y rest

/-- Keeps the first element of every run of equal keys. -/
def dropRepeats (key : α → String) : List α → List α
  | [] => []
  | x :: rest => x :: dropRepeatsAfter key x rest

/-- The elements in rising order of their keys; of the elements with one key the first stays. -/
def sortDistinctBy (key : α → String) (xs : List α) : List α :=
  dropRepeats key (xs.mergeSort fun a b => decide (key a ≤ key b))

/-- The texts in rising order, each once. -/
def sortDistinct (xs : List String) : List String := sortDistinctBy id xs

end Linkage

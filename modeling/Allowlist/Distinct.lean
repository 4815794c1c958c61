/-!
# Distinct — lists that keep first occurrences

Lists grown one element at a time, where an element that is already present is not added again.
The order is the order of first occurrence.
-/

namespace Allowlist.Distinct

variable {α : Type} [DecidableEq α]

/-- `kept` with `a` at its end, unless `a` is present. -/
def add (kept : List α) (a : α) : List α :=
  if a ∈ kept then kept else kept ++ [a]

/-- `kept` followed by the elements of `more` that are new, each once. -/
def extend (kept more : List α) : List α :=
  more.foldl add kept

/-- The elements of a list, each once, in order of first occurrence. -/
def ofList (elements : List α) : List α :=
  extend [] elements

end Allowlist.Distinct

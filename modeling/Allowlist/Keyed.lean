/-!
# Keyed — association lists in key order

A keyed list is a list of pairs.  It is *sorted* when its keys strictly increase, so that a sorted
list holds each key once and is determined by its look-ups.  `insert` is a single pass that keeps
the order and replaces the entry of an equal key; `List.lookup` reads an entry back.
-/

namespace Allowlist.Keyed

variable {κ α : Type}

/-- The keys of the list strictly increase. -/
def Sorted [LT κ] (entries : List (κ × α)) : Prop :=
  entries.Pairwise fun a b => a.1 < b.1

/-- The list with `value` under `key`, at the place that the order gives it. -/
def insert [LT κ] [DecidableLT κ] (key : κ) (value : α) : List (κ × α) → List (κ × α)
  | [] => [(key, value)]
  | (k, v) :: rest =>
    if key < k then (key, value) :: (k, v) :: rest
    else if k < key then (k, v) :: insert key value rest
    else (key, value) :: rest

/-- The sorted list of the given pairs, in which a later pair replaces an earlier one. -/
def ofList [LT κ] [DecidableLT κ] (pairs : List (κ × α)) : List (κ × α) :=
  pairs.foldl (fun entries pair => insert pair.1 pair.2 entries) []

end Allowlist.Keyed

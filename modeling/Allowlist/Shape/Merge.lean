import Allowlist.Distinct
import Allowlist.Shape.Basic

/-!
# Shape.Merge — the union of two shapes

Two declarations of one name merge when they are of one kind.  Keys stay keys.  Objects merge
member by member.  Arrays unite their element shapes, first occurrences first, and either both
hold plain values or neither does.  Otherwise they conflict, and the error is the path of member
names, from the top, at which they do.

The members of an object are a map, and a map is walked in no order that could be relied on.  When
several members conflict it is the order that decides which of them is met first and named.  So all
that merges is given for any `MemberOrder`; by default members are walked as they are listed.
-/

namespace Allowlist.Shape

/-- In which order the members of an object are walked when it is merged into another: in any, and
not in the same one for every object or at every place.  One merge is at each path once, so no walk
is left out when the order goes by the path and the members. -/
class MemberOrder where
  arrange : List String → List (String × Shape) → List (String × Shape)
  perm : ∀ (path : List String) (members : List (String × Shape)),
    (arrange path members).Perm members

/-- The order of the names, in which members are listed. -/
instance MemberOrder.listed : MemberOrder := ⟨fun _ members => members, fun _ _ => .rfl⟩

/-- Members are as large in one order as in another. -/
theorem sizeOf_eq_of_perm {ms ns : List (String × Shape)} (h : ms.Perm ns) :
    sizeOf ms = sizeOf ns := by
  induction h with
  | nil => rfl
  | cons m _ ih => simp [ih]
  | swap m n ms =>
    simp only [List.cons.sizeOf_spec]
    omega
  | trans _ _ ih ih' => exact ih.trans ih'

variable [MemberOrder]

mutual
/-- The union of two shapes that stand at `path`. -/
def merge : List String → Shape → Shape → Except (List String) Shape
  | _, key, key => .ok key
  | path, object ms, object ns =>
    (mergeMembers path ms (MemberOrder.arrange path ns)).map object
  | path, array es, array fs =>
    if es.isEmpty = fs.isEmpty then .ok (array (Distinct.extend es fs)) else .error path
  | path, _, _ => .error path
termination_by _ _ shape => sizeOf shape
decreasing_by
  rw [sizeOf_eq_of_perm (MemberOrder.perm path ns), object.sizeOf_spec]
  omega

/-- The members on the left with those on the right added one after the other. -/
def mergeMembers : List String → List (String × Shape) → List (String × Shape) →
    Except (List String) (List (String × Shape))
  | _, ms, [] => .ok ms
  | path, ms, (name, shape) :: ns => do
    let merged ← match ms.lookup name with
      | none => .ok shape
      | some old => merge (path ++ [name]) old shape
    mergeMembers path (Keyed.insert name merged ms) ns
termination_by _ _ members => sizeOf members
end

/-- The members with `name` declared once more, as `shape`. -/
def addMember (path : List String) (ms : List (String × Shape)) (name : String) (shape : Shape) :
    Except (List String) (List (String × Shape)) := do
  let merged ← match ms.lookup name with
    | none => .ok shape
    | some old => merge (path ++ [name]) old shape
  return Keyed.insert name merged ms

theorem mergeMembers_nil (path : List String) (ms : List (String × Shape)) :
    mergeMembers path ms [] = .ok ms := by
  rw [mergeMembers]

theorem mergeMembers_cons (path : List String) (ms : List (String × Shape)) (name : String)
    (shape : Shape) (ns : List (String × Shape)) :
    mergeMembers path ms ((name, shape) :: ns) =
      (addMember path ms name shape).bind fun ms => mergeMembers path ms ns := by
  rw [mergeMembers, addMember]
  cases ms.lookup name with
  | none => rfl
  | some old =>
    cases h : merge (path ++ [name]) old shape <;>
      simp [h, bind, Except.bind, pure, Except.pure]

end Allowlist.Shape

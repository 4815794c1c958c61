import Allowlist.Keyed
import Allowlist.Path

/-!
# Shape — the trees that rules denote

A `Shape` says which hops may follow.  A `key` ends the path.  An `object` reads one member name
and goes on with the shape of that member; its members are a sorted keyed list, so equal objects
are equal lists.  An `array` reads one element hop: with no element shapes it holds plain values
and the path ends there, otherwise the rest of the path must fit at least one of its shapes.
-/

namespace Allowlist

inductive Shape where
  | key
  | object (members : List (String × Shape))
  | array (elements : List Shape)

namespace Shape

/-! ### Equality -/

mutual
/-- Shapes are equal when they are written alike, members and elements in order. -/
def decEq : (a b : Shape) → Decidable (a = b)
  | key, key => isTrue rfl
  | key, object _ => isFalse nofun
  | key, array _ => isFalse nofun
  | object _, key => isFalse nofun
  | object _, array _ => isFalse nofun
  | array _, key => isFalse nofun
  | array _, object _ => isFalse nofun
  | object ms, object ns =>
    match decEqMembers ms ns with
    | isTrue h => isTrue (h ▸ rfl)
    | isFalse h => isFalse fun e => h (Shape.object.inj e)
  | array es, array fs =>
    match decEqElements es fs with
    | isTrue h => isTrue (h ▸ rfl)
    | isFalse h => isFalse fun e => h (Shape.array.inj e)

def decEqMembers : (ms ns : List (String × Shape)) → Decidable (ms = ns)
  | [], [] => isTrue rfl
  | [], _ :: _ => isFalse nofun
  | _ :: _, [] => isFalse nofun
  | (k, a) :: ms, (l, b) :: ns =>
    if hk : k = l then
      match decEq a b, decEqMembers ms ns with
      | isTrue ha, isTrue hm => isTrue (by rw [hk, ha, hm])
      | isFalse ha, _ => isFalse fun e => ha (Prod.mk.inj (List.cons.inj e).1).2
      | _, isFalse hm => isFalse fun e => hm (List.cons.inj e).2
    else isFalse fun e => hk (Prod.mk.inj (List.cons.inj e).1).1

def decEqElements : (es fs : List Shape) → Decidable (es = fs)
  | [], [] => isTrue rfl
  | [], _ :: _ => isFalse nofun
  | _ :: _, [] => isFalse nofun
  | a :: es, b :: fs =>
    match decEq a b, decEqElements es fs with
    | isTrue ha, isTrue hm => isTrue (by rw [ha, hm])
    | isFalse ha, _ => isFalse fun e => ha (List.cons.inj e).1
    | _, isFalse hm => isFalse fun e => hm (List.cons.inj e).2
end

instance : DecidableEq Shape := decEq

/-! ### Matching -/

mutual
/-- The hops, read from this shape on, end where the shape lets a path end. -/
def accepts : Shape → List Hop → Bool
  | key, hops => hops.isEmpty
  | object _, [] => false
  | object members, hop :: rest => hop.member?.any fun name => memberAccepts members name rest
  | array _, [] => false
  | array [], hop :: rest => hop.isElement && rest.isEmpty
  | array (e :: es), hop :: rest => hop.isElement && !rest.isEmpty && someAccepts (e :: es) rest

/-- The member `name` exists and accepts the hops. -/
def memberAccepts : List (String × Shape) → String → List Hop → Bool
  | [], _, _ => false
  | (k, shape) :: members, name, hops =>
    if name == k then shape.accepts hops else memberAccepts members name hops

/-- One of the shapes accepts the hops. -/
def someAccepts : List Shape → List Hop → Bool
  | [], _ => false
  | shape :: shapes, hops => shape.accepts hops || someAccepts shapes hops
end

theorem memberAccepts_eq (members : List (String × Shape)) (name : String) (hops : List Hop) :
    memberAccepts members name hops = (members.lookup name).any (·.accepts hops) := by
  induction members with
  | nil => rfl
  | cons m members ih =>
    obtain ⟨k, shape⟩ := m
    by_cases h : name = k
    · simp [memberAccepts, h]
    · simp [memberAccepts, List.lookup_cons, beq_false_of_ne h, ih]

theorem someAccepts_eq (shapes : List Shape) (hops : List Hop) :
    someAccepts shapes hops = shapes.any (·.accepts hops) := by
  induction shapes with
  | nil => rfl
  | cons s shapes ih => simp [someAccepts, ih]

/-! ### Depth -/

mutual
/-- Nesting depth: a key or an empty group counts one, every enclosing group one more. -/
def depth : Shape → Nat
  | key => 1
  | object members => membersDepth members + 1
  | array elements => elementsDepth elements + 1

/-- The greatest depth among the members, zero without members. -/
def membersDepth : List (String × Shape) → Nat
  | [] => 0
  | (_, shape) :: members => max shape.depth (membersDepth members)

/-- The greatest depth among the shapes, zero without shapes. -/
def elementsDepth : List Shape → Nat
  | [] => 0
  | shape :: shapes => max shape.depth (elementsDepth shapes)
end

/-- The shape that ends a path. -/
def isKey : Shape → Bool
  | key => true
  | _ => false

/-- A group with nothing in it. -/
def isEmptyGroup : Shape → Bool
  | key => false
  | object members => members.isEmpty
  | array elements => elements.isEmpty

/-! ### Sorted shapes -/

mutual
/-- Every object of the tree has its members in strictly increasing name order. -/
def Sorted : Shape → Prop
  | key => True
  | object members => Keyed.Sorted members ∧ SortedMembers members
  | array elements => SortedElements elements

def SortedMembers : List (String × Shape) → Prop
  | [] => True
  | (_, shape) :: members => shape.Sorted ∧ SortedMembers members

def SortedElements : List Shape → Prop
  | [] => True
  | shape :: shapes => shape.Sorted ∧ SortedElements shapes
end

end Shape

end Allowlist

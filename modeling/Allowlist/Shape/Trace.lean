import Allowlist.Shape.Basic

/-!
# Shape.Trace — a match with every decision recorded

`Shape.trace` walks a shape as `Shape.accepts` does and records what it met.  An object records
the member that it went on with, an array every one of its element shapes, so a trace shows all
alternatives and not just the first that fits.
-/

namespace Allowlist

/-- The record of one visited shape.  The hop is the one that the shape was offered, if any. -/
inductive Trace where
  | key (matched : Bool) (remaining : Nat)
  | object (matched : Bool) (hop : Option Hop) (child : Option Trace)
  | array (matched : Bool) (hop : Option Hop) (elements : List Trace)

namespace Trace

/-- Whether the visited shape accepted its hops. -/
def matched : Trace → Bool
  | key m _ => m
  | object m _ _ => m
  | array m _ _ => m

end Trace

namespace Shape

mutual
/-- The walk of the hops through the shape. -/
def trace : Shape → List Hop → Trace
  | key, hops => .key hops.isEmpty hops.length
  | object _, [] => .object false none none
  | object members, hop :: rest =>
    let child := hop.member?.bind fun name => memberTrace members name rest
    .object (child.any Trace.matched) (some hop) child
  | array _, [] => .array false none []
  | array elements, hop :: rest =>
    if !hop.isElement then .array false (some hop) []
    else if elements.isEmpty then .array rest.isEmpty (some hop) []
    else if rest.isEmpty then .array false (some hop) []
    else
      let traces := elementTraces elements rest
      .array (traces.any Trace.matched) (some hop) traces

/-- The walk through the member `name`, if there is one. -/
def memberTrace : List (String × Shape) → String → List Hop → Option Trace
  | [], _, _ => none
  | (k, shape) :: members, name, hops =>
    if name == k then some (shape.trace hops) else memberTrace members name hops

/-- The walks through all shapes, in order. -/
def elementTraces : List Shape → List Hop → List Trace
  | [], _ => []
  | shape :: shapes, hops => shape.trace hops :: elementTraces shapes hops
end

theorem memberTrace_eq (members : List (String × Shape)) (name : String) (hops : List Hop) :
    memberTrace members name hops = (members.lookup name).map (·.trace hops) := by
  induction members with
  | nil => rfl
  | cons m members ih =>
    obtain ⟨k, shape⟩ := m
    by_cases h : name = k
    · simp [memberTrace, h]
    · simp [memberTrace, List.lookup_cons, beq_false_of_ne h, ih]

theorem elementTraces_eq (shapes : List Shape) (hops : List Hop) :
    elementTraces shapes hops = shapes.map (·.trace hops) := by
  induction shapes with
  | nil => rfl
  | cons s shapes ih => simp [elementTraces, ih]

end Shape

end Allowlist

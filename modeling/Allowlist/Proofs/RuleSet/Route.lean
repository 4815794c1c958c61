import Allowlist.Proofs.Path.Render
import Allowlist.Proofs.RuleSet.Render
import Allowlist.Proofs.Shape.Prune

/-!
# Proofs.RuleSet.Route — the paths that a compiled shape describes

A route goes from the root of a shape to a key or to an array of plain values, by one member of each
object and one element shape of each array on its way (`Shape.Route`).  The matcher searches all of
them at once and stops early; what it accepts are the hops that take some route stage by stage
(`accepts_iff_route`).  The paths that rules permit are therefore read off the routes of their root,
and so are the bounds and the freedoms that paths have (`permits_iff_route`).
-/

namespace Allowlist

/-! ### Hops with another text -/

namespace Hop

/-- The hop in its form, with `text` in the place of its own. -/
def withText (text : String) : Hop → Hop
  | name _ => name text
  | bracket _ => bracket text
  | anonymous => anonymous

theorem alike_self (hop : Hop) : hop.Alike hop := ⟨rfl, rfl⟩

/-- A head and the same text in brackets name the same member, or are both elements. -/
theorem alike_bracket (text : String) : (name text).Alike (bracket text) := ⟨rfl, rfl⟩

theorem member?_of_isNumeric {hop : Hop} (h : hop.isNumeric = true) : hop.member? = none := by
  rw [Option.eq_none_iff_forall_ne_some]
  intro name hname
  obtain ⟨htext, hdecimal⟩ := member?_eq_some_iff.mp hname
  rw [isNumeric, htext, Option.any_some, hdecimal] at h
  cases h

/-- Two numbers are both elements, and name no member. -/
theorem alike_of_isNumeric {a b : Hop} (ha : a.isNumeric = true) (hb : b.isNumeric = true) :
    a.Alike b := by
  constructor
  · rw [member?_of_isNumeric ha, member?_of_isNumeric hb]
  · rw [isElement_eq_true_iff.mpr (.inl ha), isElement_eq_true_iff.mpr (.inl hb)]

theorem isNumeric_withText {hop : Hop} (h : hop.isNumeric = true) {digits : String}
    (hdigits : isDecimal digits = true) : (hop.withText digits).isNumeric = true := by
  cases hop with
  | anonymous => cases h
  | name text => exact hdigits
  | bracket text => exact hdigits

end Hop

namespace Path

/-- Groups stay groups when the text of one of them is replaced. -/
theorem GroupsText.withText {back : List Hop} {hop : Hop} {text : String}
    (htext : Plain text.toList) {front : List Hop} {cs : List Char}
    (h : GroupsText cs (front ++ hop :: back)) :
    ∃ cs', GroupsText cs' (front ++ hop.withText text :: back) := by
  induction front generalizing cs with
  | nil =>
    rw [List.nil_append] at h
    cases h with
    | anonymous => exact ⟨_, .anonymous⟩
    | bracket _ hrest =>
      have hgroups := GroupsText.bracket htext hrest
      rw [String.ofList_toList] at hgroups
      exact ⟨_, hgroups⟩
  | cons first front ih =>
    rw [List.cons_append] at h
    generalize hmore : front ++ hop :: back = more at h
    cases h with
    | anonymous => simp at hmore
    | bracket hfirst hrest =>
      obtain ⟨cs', hrest'⟩ := ih (hmore ▸ hrest)
      exact ⟨_, .bracket hfirst hrest'⟩

/-- A path stays a path when one text is replaced. -/
theorem tokenize?_render_withText {path : String} {front back : List Hop} {hop : Hop}
    (h : tokenize? path = some (front ++ hop :: back)) {text : String}
    (htext : Plain text.toList) :
    tokenize? (render (front ++ hop.withText text :: back)) =
      some (front ++ hop.withText text :: back) := by
  suffices hpath : ∃ cs, PathText cs (front ++ hop.withText text :: back) by
    obtain ⟨cs, hpath⟩ := hpath
    exact tokenize?_render hpath.wellPlaced (by simp)
  have hpath := tokenize?_eq_some_iff.mp h
  generalize path.toList = whole at hpath
  generalize hhops : front ++ hop :: back = hops at hpath
  cases hpath with
  | groups _ hgroups =>
    rw [← hhops] at hgroups
    obtain ⟨cs', hgroups'⟩ := hgroups.withText htext
    refine ⟨cs', .groups (fun hnil => ?_) hgroups'⟩
    rw [hnil] at hgroups'
    cases front <;> cases hgroups'
  | @head head cs hops' hhead hgroups =>
    cases front with
    | nil =>
      obtain ⟨rfl, rfl⟩ := List.cons.inj hhops
      have hpath' := PathText.head htext hgroups
      rw [String.ofList_toList] at hpath'
      exact ⟨_, hpath'⟩
    | cons first front =>
      obtain ⟨rfl, rfl⟩ := List.cons.inj hhops
      obtain ⟨cs', hgroups'⟩ := hgroups.withText htext
      exact ⟨_, .head hhead hgroups'⟩

/-- A path stays a path when its head is put in brackets. -/
theorem tokenize?_render_bracket {path text : String} {rest : List Hop}
    (h : tokenize? path = some (.name text :: rest)) :
    tokenize? (render (.bracket text :: rest)) = some (.bracket text :: rest) := by
  have hpath := tokenize?_eq_some_iff.mp h
  generalize path.toList = whole at hpath
  generalize hhops : Hop.name text :: rest = hops at hpath
  cases hpath with
  | groups _ hgroups => exact absurd (by simp [← hhops]) (hgroups.ne_name text)
  | head hhead hgroups =>
    cases hhops
    have hpath' := PathText.groups (List.cons_ne_nil _ _) (.bracket hhead hgroups)
    exact tokenize?_render hpath'.wellPlaced (List.cons_ne_nil _ _)

end Path

/-! ### Routes -/

namespace Shape

/-- One stage of a route: into a member of an object, or into an array. -/
inductive Stage where
  | member (name : String)
  | element

/-- The stages from a shape to where it lets a path end. -/
inductive Route : Shape → List Stage → Prop
  | key : Route key []
  | member {members : List (String × Shape)} {name : String} {child : Shape}
      {stages : List Stage} :
      (name, child) ∈ members → Route child stages → Route (object members) (.member name :: stages)
  /-- An array of plain values. -/
  | values : Route (array []) [.element]
  | element {elements : List Shape} {e : Shape} {stages : List Stage} :
      e ∈ elements → Route e stages → Route (array elements) (.element :: stages)

/-- The hop takes the stage: it is the name of the member and no number, or it is an element. -/
def Stage.Takes : Stage → Hop → Prop
  | member name, hop => hop.text? = some name ∧ isDecimal name = false
  | element, hop => hop.isNumeric = true ∨ hop = .anonymous

/-- A route that takes no stage starts at a key. -/
theorem Route.eq_key {s : Shape} (h : Route s []) : s = .key := by
  cases h
  rfl

/-- A route takes fewer stages than the shape has levels, or as many when it ends in values. -/
theorem Route.length_le_depth {s : Shape} {stages : List Stage} (h : Route s stages) :
    stages.length ≤ s.depth := by
  induction h with
  | key => simp
  | @member members name child stages hmem _ ih =>
    have hle : child.depth ≤ membersDepth members := membersDepth_le_iff.mp le_rfl _ hmem
    rw [List.length_cons, depth]
    omega
  | values => simp [depth, elementsDepth]
  | @element elements e stages hmem _ ih =>
    have hle := elementsDepth_le_iff.mp le_rfl _ hmem
    rw [List.length_cons, depth]
    omega

/-- Hops that take a route are accepted. -/
theorem Route.accepts {s : Shape} {stages : List Stage} (h : Route s stages) (hs : s.Declared)
    {hops : List Hop} (hhops : List.Forall₂ Stage.Takes stages hops) :
    s.accepts hops = true := by
  induction h generalizing hops with
  | key =>
    cases hhops
    rfl
  | @member members name child stages hmem _ ih =>
    cases hhops with
    | @cons _ hop _ rest htakes hrest =>
      cases hs with
      | object hsorted _ hsub =>
        have hlookup := hsorted.lookup_eq_some_iff.mpr hmem
        rw [accepts_object_cons, Hop.member?_eq_some_iff.mpr htakes, Option.any_some, hlookup,
          Option.any_some]
        exact ih (hsub _ hmem) hrest
  | values =>
    cases hhops with
    | cons htakes hrest =>
      cases hrest
      rw [accepts_array_cons, Hop.isElement_eq_true_iff.mpr htakes]
      rfl
  | @element elements e stages hmem hroute ih =>
    cases hhops with
    | @cons _ hop _ rest htakes hrest =>
      cases hs with
      | array _ hkey hsub =>
        -- no element is a key, so the route goes on and hops are left
        have hrestNil : rest ≠ [] := by
          rintro rfl
          cases hrest
          exact hkey (hroute.eq_key ▸ hmem)
        have hany : elements.any (·.accepts rest) = true :=
          List.any_eq_true.mpr ⟨e, hmem, ih (hsub _ hmem) hrest⟩
        rw [accepts_array_cons, Hop.isElement_eq_true_iff.mpr htakes,
          if_neg (List.ne_nil_of_mem hmem), hany]
        simp [hrestNil]

/-- Hops that are accepted take some route. -/
theorem exists_route_of_accepts {s : Shape} {hops : List Hop} (h : s.accepts hops = true) :
    ∃ stages, Route s stages ∧ List.Forall₂ Stage.Takes stages hops := by
  induction s using Shape.induction generalizing hops with
  | key =>
    have hnil : hops = [] := List.isEmpty_iff.mp h
    exact ⟨[], .key, hnil ▸ .nil⟩
  | object members ih =>
    cases hops with
    | nil => cases h
    | cons hop rest =>
      rw [accepts_object_cons] at h
      obtain ⟨name, hname, h⟩ := (Option.any_eq_true _ _).mp h
      obtain ⟨child, hchild, h⟩ := (Option.any_eq_true _ _).mp h
      have hmem := Keyed.mem_of_lookup hchild
      obtain ⟨stages, hroute, hhops⟩ := ih _ hmem h
      exact ⟨_, .member hmem hroute, .cons (Hop.member?_eq_some_iff.mp hname) hhops⟩
  | array elements ih =>
    cases hops with
    | nil => cases elements <;> cases h
    | cons hop rest =>
      rw [accepts_array_cons, Bool.and_eq_true, Hop.isElement_eq_true_iff] at h
      obtain ⟨htakes, h⟩ := h
      by_cases hnil : elements = []
      · rw [if_pos hnil] at h
        obtain rfl : rest = [] := List.isEmpty_iff.mp h
        exact ⟨[.element], hnil ▸ .values, .cons htakes .nil⟩
      · rw [if_neg hnil, Bool.and_eq_true, List.any_eq_true] at h
        obtain ⟨-, e, hmem, haccepts⟩ := h
        obtain ⟨stages, hroute, hhops⟩ := ih e hmem haccepts
        exact ⟨_, .element hmem hroute, .cons htakes hhops⟩

/-- A declared shape accepts exactly the hops that take one of its routes. -/
theorem accepts_iff_route {s : Shape} (hs : s.Declared) {hops : List Hop} :
    s.accepts hops = true ↔
      ∃ stages, Route s stages ∧ List.Forall₂ Stage.Takes stages hops :=
  ⟨exists_route_of_accepts, fun ⟨_, hroute, hhops⟩ => hroute.accepts hs hhops⟩

end Shape

/-! ### Permitted paths -/

namespace RuleSet

open Allowlist.Shape (Stage Route)

/-- Alike hops of two paths are permitted alike. -/
theorem permits_congr (set : RuleSet) {path path' : String} {hops hops' : List Hop}
    (h : Path.tokenize? path = some hops) (h' : Path.tokenize? path' = some hops')
    (halike : List.Forall₂ Hop.Alike hops hops') : set.permits path' = set.permits path := by
  rw [permits, permits, h, h', Option.any_some, Option.any_some,
    set.root.accepts_congr halike]

/-- A rule set permits exactly the paths whose hops take one of the routes of its root.  Such a path
has no more hops than the root has levels; members under numbers and empty objects can be left out of
the root; and neither another number in the place of a number nor brackets around the head make a
difference. -/
theorem permits_iff_route {rules : List String} {set : RuleSet} (h : compile rules = .ok set) :
    (∀ path, set.permits path = true ↔
      ∃ hops stages, Path.tokenize? path = some hops ∧ Route set.root stages ∧
        List.Forall₂ Stage.Takes stages hops) ∧
    (∀ path hops, set.permits path = true → Path.tokenize? path = some hops →
      hops.length ≤ set.depth) ∧
    set.depth ≤ 32 ∧
    (∀ path, RuleSet.permits ⟨set.root.prune, set.rules⟩ path = set.permits path) ∧
    (∀ path front hop back digits, Path.tokenize? path = some (front ++ hop :: back) →
      hop.isNumeric = true → isDecimal digits = true →
      set.permits (Path.render (front ++ hop.withText digits :: back)) = set.permits path) ∧
    ∀ path text rest, Path.tokenize? path = some (.name text :: rest) →
      set.permits (Path.render (.bracket text :: rest)) = set.permits path := by
  have hroot := isRoot_of_compile h
  have hroute : ∀ path, set.permits path = true ↔
      ∃ hops stages, Path.tokenize? path = some hops ∧ Route set.root stages ∧
        List.Forall₂ Stage.Takes stages hops := by
    intro path
    rw [permits_eq_true_iff]
    simp only [Shape.accepts_iff_route hroot.declared, exists_and_left]
  refine ⟨hroute, ?_, hroot.depth_le, ?_, ?_, ?_⟩
  · intro path hops hpermits htokens
    obtain ⟨hops', stages, htokens', hstages, hhops⟩ := (hroute path).mp hpermits
    cases htokens.symm.trans htokens'
    rw [← hhops.length_eq]
    exact hstages.length_le_depth
  · intro path
    unfold permits
    cases Path.tokenize? path with
    | none => rfl
    | some hops => exact Shape.accepts_prune hroot.declared.sorted hops
  · intro path front hop back digits htokens hhop hdigits
    refine set.permits_congr htokens
      (Path.tokenize?_render_withText htokens (Path.plain_of_isDecimal hdigits)) ?_
    have hsame : ∀ hops, List.Forall₂ Hop.Alike hops hops := fun hops =>
      List.forall₂_same.mpr fun hop _ => hop.alike_self
    have hnumbers := Hop.alike_of_isNumeric hhop (Hop.isNumeric_withText hhop hdigits)
    exact List.rel_append (hsame front) (.cons hnumbers (hsame back))
  · intro path text rest htokens
    refine set.permits_congr htokens (Path.tokenize?_render_bracket htokens) ?_
    exact .cons (Hop.alike_bracket text) (List.forall₂_same.mpr fun hop _ => hop.alike_self)

/-- Two rules with an array in an array, a name of digits and an empty object.  A route through both
arrays permits a path, with other numbers and with brackets around its head as well; the digits and
the empty object can be left out. -/
theorem permits_iff_route_nested :
    ∃ set, compile ["k:[b, [c]], 0", "e:{}"] = .ok set ∧ set.permits "k[7][0][c]" = true ∧
      4 ≤ set.depth ∧ set.permits "k[12][0][c]" = true ∧ set.permits "[k][7][0][c]" = true ∧
      set.root.prune ≠ set.root ∧
      ∀ path, RuleSet.permits ⟨set.root.prune, set.rules⟩ path = set.permits path := by
  let inner := Shape.array [.object [("c", .key)]]
  let outer := Shape.array [.object [("b", .key)], inner]
  let set : RuleSet :=
    ⟨.object [("0", .key), ("e", .object []), ("k", outer)], ["k:[b, [c]], 0", "e:{}"]⟩
  have hcompile : compile ["k:[b, [c]], 0", "e:{}"] = .ok set := by decide +kernel
  obtain ⟨hroutes, hlength, -, hprune, hnumber, hhead⟩ := permits_iff_route hcompile
  have htokens : Path.tokenize? "k[7][0][c]" =
      some [.name "k", .bracket "7", .bracket "0", .bracket "c"] := by
    decide +kernel
  have hroute : Route set.root [.member "k", .element, .element, .member "c"] := by
    have hinner : Route inner [.element, .member "c"] :=
      .element (List.mem_singleton_self _) (.member (List.mem_singleton_self _) .key)
    have houter : Route outer [.element, .element, .member "c"] :=
      .element (List.mem_cons_of_mem _ (List.mem_singleton_self _)) hinner
    exact .member (by simp) houter
  have htakes : List.Forall₂ Stage.Takes [.member "k", .element, .element, .member "c"]
      [.name "k", .bracket "7", .bracket "0", .bracket "c"] :=
    .cons ⟨rfl, by decide⟩ (.cons (.inl (by decide)) (.cons (.inl (by decide))
      (.cons ⟨rfl, by decide⟩ .nil)))
  have hpermits := (hroutes _).mpr ⟨_, _, htokens, hroute, htakes⟩
  have hother := hnumber _ [.name "k"] (.bracket "7") [.bracket "0", .bracket "c"] "12" htokens
    (by decide) (by decide)
  have hbracket := hhead _ _ _ htokens
  rw [hpermits] at hother hbracket
  exact ⟨set, hcompile, hpermits, hlength _ _ hpermits htokens, hother, hbracket,
    by decide +kernel, hprune⟩

end RuleSet

end Allowlist

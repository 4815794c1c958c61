import Allowlist.Proofs.Rule.Declared

/-!
# Proofs.Rule.Render — a rendered shape read back

A shape has a derivation tree of its own (`Shape.tree`): its members are the entries of an object,
its elements are groups alone.  A declared shape is what this tree denotes
(`Declared.denote?_tree`), and its rendering derives from the grammar with this tree
(`Declared.groupText`).  So a rendering reads back as the shape it was made from, and two declared
shapes with one rendering are equal.
-/

namespace Allowlist

namespace Shape

open Rule

mutual
/-- The derivation of the rendered shape. -/
def tree : Shape → Tree
  | key => .key
  | object members => .group .object (memberTrees members)
  | array elements => .group .array (elementTrees elements)

def memberTrees : List (String × Shape) → List (Option String × Tree)
  | [] => []
  | (name, shape) :: members => (some name, shape.tree) :: memberTrees members

def elementTrees : List Shape → List (Option String × Tree)
  | [] => []
  | shape :: shapes => (none, shape.tree) :: elementTrees shapes
end

theorem memberTrees_eq_map (members : List (String × Shape)) :
    memberTrees members = members.map fun m => (some m.1, m.2.tree) := by
  induction members with
  | nil => rfl
  | cons m members ih => rw [memberTrees, ih, List.map_cons]

theorem elementTrees_eq_map (elements : List Shape) :
    elementTrees elements = elements.map fun e => (none, e.tree) := by
  induction elements with
  | nil => rfl
  | cons e elements ih => rw [elementTrees, ih, List.map_cons]

/-- A member as a rendering writes it. -/
def memberText (member : String × Shape) : String :=
  if member.2.isKey then renderName member.1 else renderName member.1 ++ ":" ++ member.2.render

theorem memberTexts_eq_map (members : List (String × Shape)) :
    memberTexts members = members.map memberText := by
  induction members with
  | nil => rfl
  | cons m members ih => rw [memberTexts, ih, List.map_cons, memberText]

theorem elementTexts_eq_map (elements : List Shape) :
    elementTexts elements = elements.map render := by
  induction elements with
  | nil => rfl
  | cons e elements ih => rw [elementTexts, ih, List.map_cons]

/-! ### What the tree denotes -/

theorem denoteEntries?_map {α : Type} {parts : List α} {name : α → Option String}
    {shape : α → Shape} (h : ∀ a ∈ parts, (shape a).tree.denote? = some (shape a)) :
    Tree.denoteEntries? (parts.map fun a => (name a, (shape a).tree)) =
      some (parts.map fun a => (name a, shape a)) := by
  induction parts with
  | nil => rfl
  | cons a parts ih =>
    obtain ⟨ha, hparts⟩ := List.forall_mem_cons.mp h
    exact Tree.denoteEntries?_cons_eq_some_iff.mpr ⟨shape a, _, ha, ih hparts, rfl⟩

/-- Members in order, declared one after the other, are added at the end. -/
theorem foldlM_declare?_sorted {front members : List (String × Shape)}
    (h : Keyed.Sorted (front ++ members)) :
    (members.map fun m => (some m.1, m.2)).foldlM declare? front = some (front ++ members) := by
  induction members generalizing front with
  | nil => simp
  | cons m members ih =>
    obtain ⟨name, s⟩ := m
    have hlt : ∀ e ∈ front, e.1 < name := fun e he =>
      (List.pairwise_append.mp h).2.2 e he (name, s) (by simp)
    have hnone : front.lookup name = none := by
      rw [List.lookup_eq_none_iff]
      exact fun e he => bne_iff_ne.mpr fun heq => Std.lt_irrefl (heq ▸ hlt e he)
    have hadd : declare? front (some name, s) = some (front ++ [(name, s)]) := by
      rw [declare?, addMember, hnone, ← Keyed.insert_eq_append hlt]
      rfl
    rw [List.map_cons, List.foldlM_cons, hadd, Option.bind_eq_bind, Option.bind_some,
      ih (by simpa using h)]
    simp

/-- A declared shape is what its tree denotes. -/
theorem Declared.denote?_tree {s : Shape} (h : s.Declared) : s.tree.denote? = some s := by
  induction h with
  | key => rfl
  | @object members hms _ _ ih =>
    refine Tree.denote?_group_eq_some_iff.mpr ⟨members.map fun m => (some m.1, m.2), ?_, ?_⟩
    · rw [memberTrees_eq_map]
      exact denoteEntries?_map ih
    · rw [groupShape?, foldlM_declare?_sorted (by simpa using hms)]
      rfl
  | @array elements hnodup _ _ ih =>
    refine Tree.denote?_group_eq_some_iff.mpr ⟨elements.map fun e => (none, e), ?_, ?_⟩
    · rw [elementTrees_eq_map]
      exact denoteEntries?_map ih
    · have helements :
        (elements.map fun e => ((none : Option String), e)).map elementOf = elements := by
        rw [List.map_map]
        exact List.map_id elements
      rw [groupShape?, helements, Distinct.ofList_eq_self hnodup]

/-! ### What the rendering derives from -/

theorem IsName.keyText {name : String} (h : IsName name) :
    KeyText name (renderName name).toList := by
  unfold renderName
  by_cases hblank : ' ' ∈ name.toList
  · rw [if_pos hblank]
    simpa using KeyText.quoted h.ne_nil h.chars
  · rw [if_neg hblank]
    refine .bare h.ne_nil fun c hc => ?_
    have hchar := h.chars c hc
    have hne : c ≠ ' ' := fun he => hblank (he ▸ hc)
    simpa [isQuotedChar, hne] using hchar

theorem bodyText_intercalate {kind : GroupKind} {entries : List (Option String × Tree)}
    {texts : List (List Char)} (h : List.Forall₂ (EntryText kind) entries texts) :
    BodyText kind entries ([',', ' '].intercalate texts) := by
  by_cases hne : entries = []
  · subst hne
    cases h
    exact .blank Blank.nil
  · exact .entries (.of_forall₂ Blank.single h hne)

theorem entryText_member {kind : GroupKind} {name : String} {s : Shape} (hname : IsName name)
    (hs : s ≠ key → GroupText s.tree s.render.toList) :
    EntryText kind (some name, s.tree) (memberText (name, s)).toList := by
  by_cases hkey : s = key
  · subst hkey
    have hentry : EntryText kind (some name, .key) _ := .key Blank.nil hname.keyText Blank.nil
    simpa [memberText, isKey, tree] using hentry
  · have hentry : EntryText kind (some name, s.tree) _ :=
      .keyed Blank.nil hname.keyText Blank.nil Blank.nil (hs hkey) Blank.nil
    have hisKey : s.isKey = false := by
      cases s with
      | key => exact absurd rfl hkey
      | object members => rfl
      | array elements => rfl
    simpa [memberText, hisKey] using hentry

/-- The rendering of a declared group derives from the grammar. -/
theorem Declared.groupText {s : Shape} (h : s.Declared) :
    s ≠ Shape.key → GroupText s.tree s.render.toList := by
  induction h with
  | key => exact fun hne => absurd rfl hne
  | @object members _ hnames _ ih =>
    intro _
    have hbody : BodyText .object (memberTrees members)
        ([',', ' '].intercalate ((memberTexts members).map String.toList)) := by
      refine bodyText_intercalate ?_
      rw [memberTrees_eq_map, memberTexts_eq_map, List.map_map, List.forall₂_map_left_iff,
        List.forall₂_map_right_iff, List.forall₂_same]
      exact fun m hm => entryText_member (hnames m hm) (ih m hm)
    simpa [render, tree, GroupKind.opener, GroupKind.closer] using GroupText.group hbody
  | @array elements _ hkey _ ih =>
    intro _
    have hbody : BodyText .array (elementTrees elements)
        ([',', ' '].intercalate ((elementTexts elements).map String.toList)) := by
      refine bodyText_intercalate ?_
      rw [elementTrees_eq_map, elementTexts_eq_map, List.map_map, List.forall₂_map_left_iff,
        List.forall₂_map_right_iff, List.forall₂_same]
      intro e he
      have hgroup := ih e he fun heq => hkey (heq ▸ he)
      simpa using EntryText.alone Blank.nil hgroup Blank.nil
    simpa [render, tree, GroupKind.opener, GroupKind.closer] using GroupText.group hbody

end Shape

end Allowlist

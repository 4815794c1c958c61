import Allowlist.Rule.Entry
import Allowlist.Shape.Merge
import Mathlib.Data.List.Forall2

/-!
# Proofs.Rule.Grammar — the rule language and what its rules denote

    rule    := group | entries
    group   := '{' entries? '}' | '[' entries? ']'
    entries := entry (',' entry)*
    entry   := key | key ':' group | group        (a group alone: arrays only)

Any number of blanks may stand around a key, a group and the signs between them.  `GroupText`,
`BodyText`, `EntriesText` and `EntryText` say which texts derive from this grammar and with which
`Tree`; `Spells` says it of whole rules.  `Tree.denote?` reads a shape off a tree from the top
down; there is none when an object declares one name with two shapes that do not merge.
-/

namespace Allowlist.Rule

/-- The tree of a derivation.  A `key` is what stands for the group that an entry lacks; an entry
of a group carries the name before its group, if it has one. -/
inductive Tree where
  | key
  | group (kind : GroupKind) (entries : List (Option String × Tree))

/-! ### Texts -/

/-- A text of any number of blanks. -/
def Blank (text : List Char) : Prop := ∀ c ∈ text, c = ' '

/-- The ways to write a name: bare, or between quotes. -/
inductive KeyText (name : String) : List Char → Prop
  | bare : name.toList ≠ [] → (∀ c ∈ name.toList, isNameChar c = true) → KeyText name name.toList
  | quoted : name.toList ≠ [] → (∀ c ∈ name.toList, isQuotedChar c = true) →
      KeyText name ('\'' :: (name.toList ++ ['\'']))

mutual
/-- A group with its delimiters. -/
inductive GroupText : Tree → List Char → Prop
  | group {kind : GroupKind} {entries : List (Option String × Tree)} {body : List Char} :
      BodyText kind entries body →
      GroupText (.group kind entries) (kind.opener :: (body ++ [kind.closer]))

/-- What stands between the delimiters of a group. -/
inductive BodyText : GroupKind → List (Option String × Tree) → List Char → Prop
  | blank {kind : GroupKind} {text : List Char} : Blank text → BodyText kind [] text
  | entries {kind : GroupKind} {entries : List (Option String × Tree)} {text : List Char} :
      EntriesText kind entries text → BodyText kind entries text

/-- One or more entries with commas between them. -/
inductive EntriesText : GroupKind → List (Option String × Tree) → List Char → Prop
  | one {kind : GroupKind} {entry : Option String × Tree} {text : List Char} :
      EntryText kind entry text → EntriesText kind [entry] text
  | cons {kind : GroupKind} {entry : Option String × Tree} {text : List Char}
      {entries : List (Option String × Tree)} {rest : List Char} :
      EntryText kind entry text → EntriesText kind entries rest →
      EntriesText kind (entry :: entries) (text ++ ',' :: rest)

/-- One entry: a key, a group under a key, or in an array a group alone. -/
inductive EntryText : GroupKind → Option String × Tree → List Char → Prop
  | key {kind : GroupKind} {name : String} {p k q : List Char} :
      Blank p → KeyText name k → Blank q → EntryText kind (some name, .key) (p ++ k ++ q)
  | keyed {kind : GroupKind} {name : String} {tree : Tree} {p k q r u s : List Char} :
      Blank p → KeyText name k → Blank q → Blank r → GroupText tree u → Blank s →
      EntryText kind (some name, tree) (p ++ k ++ q ++ ':' :: (r ++ u ++ s))
  | alone {tree : Tree} {p u q : List Char} :
      Blank p → GroupText tree u → Blank q → EntryText .array (none, tree) (p ++ u ++ q)
end

/-- A rule is one group, or the entries of an object without its braces. -/
inductive Spells : Tree → List Char → Prop
  | group {tree : Tree} {p u q : List Char} :
      Blank p → GroupText tree u → Blank q → Spells tree (p ++ u ++ q)
  | entries {entries : List (Option String × Tree)} {text : List Char} :
      EntriesText .object entries text → Spells (.group .object entries) text

/-! ### Shapes -/

/-- An array entry under a name is an object with that one member. -/
def elementOf : Option String × Shape → Shape
  | (some name, shape) => .object [(name, shape)]
  | (none, shape) => shape

section

variable [Shape.MemberOrder]

/-- The members with one entry more, merged with an entry of the same name. -/
def declare? (members : List (String × Shape)) :
    Option String × Shape → Option (List (String × Shape))
  | (some name, shape) => (Shape.addMember [] members name shape).toOption
  | (none, _) => none

/-- The shape of a group from those of its entries: an object takes them from left to right as its
members, an array keeps each element shape once. -/
def groupShape? : GroupKind → List (Option String × Shape) → Option Shape
  | .object, entries => (entries.foldlM declare? []).map .object
  | .array, entries => some (.array (Distinct.ofList (entries.map elementOf)))

mutual
/-- The shape that a tree denotes. -/
def Tree.denote? : Tree → Option Shape
  | .key => some .key
  | .group kind entries => (denoteEntries? entries).bind (groupShape? kind)

/-- The entries with the shapes that their trees denote. -/
def Tree.denoteEntries? : List (Option String × Tree) → Option (List (Option String × Shape))
  | [] => some []
  | (name, tree) :: entries =>
    tree.denote?.bind fun shape => (denoteEntries? entries).map ((name, shape) :: ·)
end

theorem Tree.denoteEntries?_cons_eq_some_iff {name : Option String} {tree : Tree}
    {entries : List (Option String × Tree)} {shapes : List (Option String × Shape)} :
    denoteEntries? ((name, tree) :: entries) = some shapes ↔
      ∃ shape rest, tree.denote? = some shape ∧ denoteEntries? entries = some rest ∧
        shapes = (name, shape) :: rest := by
  rw [denoteEntries?]
  cases tree.denote? <;> cases denoteEntries? entries <;> simp [eq_comm]

end

/-! ### Characters of names and blanks -/

theorem Blank.nil : Blank [] := nofun

theorem Blank.single : Blank [' '] := fun _ hc => List.mem_singleton.mp hc

theorem Blank.append {p q : List Char} (hp : Blank p) (hq : Blank q) : Blank (p ++ q) :=
  fun c hc => (List.mem_append.mp hc).elim (hp c) (hq c)

theorem isNameChar_of_isQuotedChar {c : Char} (h : isNameChar c = true) :
    isQuotedChar c = true := by
  simp [isQuotedChar, h]

/-- A name of one character, bare. -/
theorem KeyText.single {c : Char} (hc : isNameChar c = true) : KeyText (String.ofList [c]) [c] := by
  have hbare := @KeyText.bare (String.ofList [c]) (by simp) (by simpa using hc)
  simpa using hbare

theorem KeyText.ne_nil {name : String} {k : List Char} (h : KeyText name k) : k ≠ [] := by
  cases h with
  | bare hne _ => exact hne
  | quoted _ _ => simp

/-- A written name holds quotes, blanks and characters of names. -/
theorem KeyText.char_cases {name : String} {k : List Char} (h : KeyText name k) {c : Char}
    (hc : c ∈ k) : c = '\'' ∨ isQuotedChar c = true := by
  cases h with
  | bare _ hall => exact .inr (isNameChar_of_isQuotedChar (hall c hc))
  | quoted _ hall =>
    simp only [List.mem_cons, List.mem_append, List.not_mem_nil, or_false] at hc
    rcases hc with rfl | hc | rfl
    · exact .inl rfl
    · exact .inr (hall c hc)
    · exact .inl rfl

/-- No blank stands at the ends of a written name. -/
theorem KeyText.head?_ne_blank {name : String} {k : List Char} (h : KeyText name k) :
    k.head? ≠ some ' ' := by
  cases h with
  | bare _ hall =>
    intro hh
    have hb := hall ' ' (List.mem_of_head? hh)
    revert hb
    decide
  | quoted _ _ => simp

theorem KeyText.getLast?_ne_blank {name : String} {k : List Char} (h : KeyText name k) :
    k.getLast? ≠ some ' ' := by
  cases h with
  | bare _ hall =>
    intro hh
    have hb := hall ' ' (List.mem_of_getLast? hh)
    revert hb
    decide
  | quoted _ _ =>
    rw [← List.cons_append, List.getLast?_concat]
    decide

/-! ### Texts of entries -/

theorem EntryText.blank_append {kind : GroupKind} {entry : Option String × Tree}
    {p text : List Char} (hp : Blank p) (h : EntryText kind entry text) :
    EntryText kind entry (p ++ text) := by
  cases h with
  | key hp' hk hq => simpa using EntryText.key (hp.append hp') hk hq
  | keyed hp' hk hq hr hu hs => simpa using EntryText.keyed (hp.append hp') hk hq hr hu hs
  | alone hp' hu hq => simpa using EntryText.alone (hp.append hp') hu hq

theorem EntriesText.blank_append {kind : GroupKind} {entries : List (Option String × Tree)}
    {p text : List Char} (hp : Blank p) (h : EntriesText kind entries text) :
    EntriesText kind entries (p ++ text) := by
  cases h with
  | one hentry => exact .one (hentry.blank_append hp)
  | cons hentry hmore => simpa using EntriesText.cons (hentry.blank_append hp) hmore

/-- Entries with more entries behind a comma. -/
theorem EntriesText.append {kind : GroupKind} : {entries more : List (Option String × Tree)} →
    {text rest : List Char} → EntriesText kind entries text → EntriesText kind more rest →
    EntriesText kind (entries ++ more) (text ++ ',' :: rest)
  | _, _, _, _, .one hentry, hmore => .cons hentry hmore
  | _, _, _, _, .cons hentry hrest, hmore => by
    have hall := EntriesText.cons hentry (hrest.append hmore)
    simpa using hall
  termination_by structural _ _ _ _ h => h

/-- Entries with commas between them, and behind each comma the same blanks. -/
theorem EntriesText.of_forall₂ {kind : GroupKind} {entries : List (Option String × Tree)}
    {texts : List (List Char)} {p : List Char} (hp : Blank p)
    (h : List.Forall₂ (EntryText kind) entries texts) (hne : entries ≠ []) :
    EntriesText kind entries ((',' :: p).intercalate texts) := by
  induction h with
  | nil => exact absurd rfl hne
  | @cons entry text entries texts hentry hrest ih =>
    cases hrest with
    | nil => simpa using EntriesText.one hentry
    | cons hnext hmore =>
      have hall := EntriesText.cons hentry ((ih (List.cons_ne_nil _ _)).blank_append hp)
      rw [List.intercalate_cons_cons]
      simpa using hall

end Allowlist.Rule

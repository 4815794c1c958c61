import Allowlist.Proofs.Rule.Compile
import Allowlist.Proofs.Rule.References
import Allowlist.Proofs.Rule.Unambiguous
import Allowlist.Proofs.Shape.Conflict

/-!
# Proofs.Rule.Conflict — where a rule declares a name twice over

`Tree.Declares` says what a derivation declares at a path of names, through objects only.  An object
is built as soon as it is closed, before anything is known of what stands around it: the entries
that conflict are read, the rest of the rule need not be.  So the path of a conflict starts at the
body in which the two declarations are entries (`exists_apart_of_compile`), wherever this body is
and in whatever order members are walked.
-/

namespace Allowlist.Rule

open Allowlist.Rule.Symbol
open Allowlist.Shape (Kind Differ)

/-! ### Declarations of a tree -/

/-- The tree has a declaration of this kind where the names lead to, from object to object. -/
inductive Tree.Declares : Tree → List String → Kind → Prop
  | key : Declares .key [] .key
  | object {entries : List (Option String × Tree)} : Declares (.group .object entries) [] .object
  | values : Declares (.group .array []) [] .values
  | elements {entry : Option String × Tree} {entries : List (Option String × Tree)} :
      Declares (.group .array (entry :: entries)) [] .elements
  | member {name : String} {tree : Tree} {entries : List (Option String × Tree)}
      {names : List String} {kind : Kind} :
      (some name, tree) ∈ entries → Declares tree names kind →
      Declares (.group .object entries) (name :: names) kind

/-- The tree declares two kinds where the names lead to. -/
def Tree.Apart (tree : Tree) (names : List String) : Prop :=
  ∃ k l, k ≠ l ∧ tree.Declares names k ∧ tree.Declares names l

/-! ### Leading entries -/

theorem Slots.ReadAll.exists_front {slots slots' : Slots} {entries : List Entry}
    {front back : List (Option String × Parked)}
    (h : slots.ReadAll entries (front ++ back) slots') :
    ∃ first rest next, entries = first ++ rest ∧ slots.ReadAll first front next := by
  induction front generalizing slots entries with
  | nil => exact ⟨[], entries, slots, rfl, .nil⟩
  | cons part front ih =>
    cases h with
    | @cons _ middle _ entry _ _ _ hread hrest =>
      obtain ⟨first, rest, next, rfl, hfirst⟩ := ih hrest
      exact ⟨entry :: first, rest, next, rfl, .cons hread hfirst⟩

/-- The first entries of a body are spelled by the start of its text, up to a comma. -/
theorem Entry.SpellAll.exists_front {first rest : List Entry} {text : List Symbol}
    (h : SpellAll (first ++ rest) text) (hne : first ≠ []) :
    ∃ piece more, text = piece ++ more ∧ SpellAll first piece ∧
      (more = [] ∨ ∃ tail, more = .char ',' :: tail) := by
  generalize hentries : first ++ rest = entries at h
  induction h generalizing first with
  | @one entry text hspell =>
    cases first with
    | nil => exact absurd rfl hne
    | cons e first =>
      obtain ⟨rfl, htail⟩ := List.cons.inj hentries
      obtain ⟨rfl, -⟩ := List.append_eq_nil_iff.mp htail
      exact ⟨text, [], (List.append_nil _).symm, .one hspell, .inl rfl⟩
  | @cons entry text entries more hspell hmore ih =>
    cases first with
    | nil => exact absurd rfl hne
    | cons e first =>
      obtain ⟨rfl, htail⟩ := List.cons.inj hentries
      cases first with
      | nil => exact ⟨text, .char ',' :: more, rfl, .one hspell, .inr ⟨more, rfl⟩⟩
      | cons e' first =>
        obtain ⟨piece, tail, rfl, hpiece, hend⟩ := ih (List.cons_ne_nil e' first) htail
        exact ⟨text ++ .char ',' :: piece, tail, by simp, .cons hspell hpiece, hend⟩

/-- The entries stand in the text behind `front`, and behind them an entry or a body ends. -/
def Leads (text front : List Char) (entries : List (Option String × Tree)) : Prop :=
  ∃ piece rest, text = front ++ piece ++ rest ∧ EntriesText .object entries piece ∧
    EndsEntry rest

/-! ### Where a body stands -/

/-- The body is that of the whole rule, or of the one group that the rule begins with. -/
def AtTop (front : List Char) : Prop := front = [] ∨ ∃ p, Blank p ∧ front = p ++ ['\x7b']

/-- The body is that of a group with something before it. -/
def Inside (front : List Char) : Prop := ∃ before, ¬ Blank before ∧ front = before ++ ['\x7b']

/-- The front is nothing, or ends in the brace of a group. -/
theorem atTop_or_inside_iff {front : List Char} :
    AtTop front ∨ Inside front ↔ front = [] ∨ ∃ before, front = before ++ ['\x7b'] := by
  constructor
  · rintro ((h | ⟨before, -, h⟩) | ⟨before, -, h⟩)
    · exact .inl h
    · exact .inr ⟨before, h⟩
    · exact .inr ⟨before, h⟩
  · rintro (h | ⟨before, h⟩)
    · exact .inl (.inl h)
    · by_cases hblank : Blank before
      · exact .inl (.inr ⟨before, hblank, h⟩)
      · exact .inr ⟨before, hblank, h⟩

/-- A body of the rule is led by entries that declare two kinds at the path, from where the body
stands. -/
def ApartBehind (rule : List Char) (front : List Char) (names : List String) : Prop :=
  ∃ trees, Leads rule front trees ∧ (Tree.group .object trees).Apart names

theorem endsEntry_expand {sources : Sources} {more : List Symbol} {rest : List Char}
    (h : more = [] ∨ ∃ tail, more = .char ',' :: tail) (hrest : EndsEntry rest) :
    EndsEntry (sources.expand more ++ rest) := by
  rcases h with rfl | ⟨tail, rfl⟩
  · exact hrest
  · exact endsEntry_comma _

/-- The path that an error about a conflict names. -/
def Error.conflictPath? : Error → Option (List String)
  | .conflict path => some path
  | .fault _ (.conflict path) => some path
  | _ => none

theorem Error.conflictPath?_eq_some_iff {error : Error} {names : List String} :
    error.conflictPath? = some names ↔
      error = .conflict names ∨ ∃ rule, error = .fault rule (.conflict names) := by
  cases error with
  | fault rule fault => cases fault <;> simp [conflictPath?]
  | _ => simp [conflictPath?]

/-! ### Declarations and shapes -/

/-- An array with an entry has an element. -/
theorem ofList_map_elementOf_ne_nil {entry : Option String × Shape}
    {entries : List (Option String × Shape)} :
    Distinct.ofList ((entry :: entries).map elementOf) ≠ [] := by
  have hmem : elementOf entry ∈ Distinct.ofList ((entry :: entries).map elementOf) :=
    Distinct.mem_ofList.mpr List.mem_cons_self
  exact List.ne_nil_of_mem hmem

variable [Shape.MemberOrder]

theorem Tree.exists_of_mem_denoteEntries? {trees : List (Option String × Tree)}
    {shapes : List (Option String × Shape)} (h : denoteEntries? trees = some shapes)
    {entry : Option String × Shape} (hentry : entry ∈ shapes) :
    ∃ tree, (entry.1, tree) ∈ trees ∧ tree.denote? = some entry.2 := by
  induction trees generalizing shapes with
  | nil =>
    cases h
    cases hentry
  | cons first trees ih =>
    obtain ⟨name, tree⟩ := first
    obtain ⟨shape, rest, hshape, hrest, rfl⟩ := denoteEntries?_cons_eq_some_iff.mp h
    rcases List.mem_cons.mp hentry with rfl | hentry
    · exact ⟨tree, List.mem_cons_self, hshape⟩
    · obtain ⟨found, hfound, hdenote⟩ := ih hrest hentry
      exact ⟨found, List.mem_cons_of_mem _ hfound, hdenote⟩

/-- What a merge of entries has at a path, one of the entries has. -/
theorem exists_member_of_kindAt? {shapes : List (Option String × Shape)}
    {ms : List (String × Shape)} (hsorted : ∀ e ∈ shapes, e.2.Sorted)
    (h : shapes.foldlM declare? [] = some ms) {name : String} {names : List String} {k : Kind}
    (hk : (Shape.object ms).kindAt? (name :: names) = some k) :
    ∃ shape, (some name, shape) ∈ shapes ∧ shape.kindAt? names = some k := by
  obtain ⟨hnamed, hall⟩ := declareAll_eq_some_iff.mp (congrArg (Option.map Shape.object) h)
  obtain ⟨s, hs, hk⟩ := (hall.kindAt?_eq_some_iff (forall_sorted_elementOf hsorted)).mp hk
  rcases List.mem_cons.mp hs with rfl | hs
  · cases hk
  · obtain ⟨⟨name?, shape⟩, hentry, rfl⟩ := List.mem_map.mp hs
    obtain ⟨other, hname⟩ := Option.ne_none_iff_exists'.mp (hnamed _ hentry)
    obtain rfl : name? = some other := hname
    rw [elementOf, Shape.kindAt?_object_cons, List.lookup_cons] at hk
    by_cases hne : name = other
    · subst hne
      exact ⟨shape, hentry, by simpa using hk⟩
    · rw [beq_false_of_ne hne] at hk
      cases hk

/-- A tree declares the kind of its shape. -/
theorem Tree.declares_kind {tree : Tree} {s : Shape} (h : tree.denote? = some s) :
    tree.Declares [] s.kind := by
  cases tree with
  | key =>
    cases h
    exact .key
  | group kind trees =>
    obtain ⟨shapes, hshapes, hgroup⟩ := denote?_group_eq_some_iff.mp h
    cases kind with
    | object =>
      obtain ⟨ms, -, rfl⟩ := Option.map_eq_some_iff.mp hgroup
      exact .object
    | array =>
      obtain rfl := Option.some.inj hgroup
      cases trees with
      | nil =>
        cases hshapes
        exact .values
      | cons first trees =>
        obtain ⟨shape, rest, -, -, rfl⟩ := denoteEntries?_cons_eq_some_iff.mp hshapes
        obtain ⟨element, elements, helements⟩ :=
          List.exists_cons_of_ne_nil (@ofList_map_elementOf_ne_nil (first.1, shape) rest)
        rw [helements]
        exact .elements

/-- The shape of a tree has no kinds but those that the tree declares. -/
theorem Tree.declares_of_kindAt? {tree : Tree} {s : Shape} {names : List String} {k : Kind}
    (h : tree.denote? = some s) (hk : s.kindAt? names = some k) : tree.Declares names k := by
  induction names generalizing tree s with
  | nil =>
    rw [Shape.kindAt?_nil] at hk
    cases hk
    exact declares_kind h
  | cons name names ih =>
    cases tree with
    | key =>
      cases h
      cases hk
    | group kind trees =>
      obtain ⟨shapes, hshapes, hgroup⟩ := denote?_group_eq_some_iff.mp h
      cases kind with
      | array =>
        obtain rfl := Option.some.inj hgroup
        cases hk
      | object =>
        obtain ⟨ms, hms, rfl⟩ := Option.map_eq_some_iff.mp hgroup
        obtain ⟨shape, hshape, hkind⟩ :=
          exists_member_of_kindAt? (sorted_denoteEntries? trees hshapes) hms hk
        obtain ⟨found, hfound, hdenote⟩ := exists_of_mem_denoteEntries? hshapes hshape
        exact .member hfound (ih hdenote hkind)

/-! ### Conflicts of parts -/

namespace Group

theorem declarePart_eq_ok_iff {draft draft' : List (String × Shape) × Nat}
    {part : Option String × Parked} :
    declarePart draft part = .ok draft' ↔
      declare? draft.1 (part.1, part.2.shape) = some draft'.1 ∧
        draft'.2 = max draft.2 part.2.depth := by
  obtain ⟨name?, parked⟩ := part
  cases name? with
  | none => exact iff_of_false nofun fun h => nomatch h.1
  | some name =>
    obtain ⟨ms, depth⟩ := draft'
    cases hadd : Shape.addMember [] draft.1 name parked.shape <;>
      simp [declarePart, declare?, hadd, bind, Except.bind, pure, Except.pure, Except.mapError,
        Except.toOption, eq_comm]

theorem declareParts_eq_some {parts : List (Option String × Parked)}
    {draft draft' : List (String × Shape) × Nat} (h : parts.foldlM declarePart draft = .ok draft') :
    (shapesOf parts).foldlM declare? draft.1 = some draft'.1 := by
  induction parts generalizing draft with
  | nil =>
    cases h
    rfl
  | cons part parts ih =>
    obtain ⟨next, hnext, hrest⟩ := Outcome.foldlM_cons_eq_ok_iff.mp h
    rw [shapesOf, List.map_cons, List.foldlM_cons, (declarePart_eq_ok_iff.mp hnext).1]
    exact ih hrest

/-- A conflict in an object is one of an entry with those before it. -/
theorem exists_front_of_conflict {kind : GroupKind} {parts : List (Option String × Parked)}
    {names : List String} (h : ofParts kind parts = .error (.conflict names)) :
    kind = .object ∧ ∃ front name parked back ms, parts = front ++ (some name, parked) :: back ∧
      (shapesOf front).foldlM declare? [] = some ms ∧
        Shape.merge [] (.object ms) (.object [(name, parked.shape)]) = .error names := by
  have hlimit : ∀ shape depth, limit shape depth ≠ .error (.conflict names) := by
    intro shape depth h
    unfold limit at h
    split_ifs at h
    cases h
  cases kind with
  | array => exact absurd h (hlimit _ _)
  | object =>
    rw [ofParts] at h
    cases hfold : parts.foldlM declarePart ([], 0) with
    | ok draft =>
      rw [hfold] at h
      exact absurd h (hlimit _ _)
    | error e =>
      rw [hfold] at h
      cases h
      obtain ⟨front, ⟨name?, parked⟩, back, ⟨ms, depth⟩, rfl, hfront, hfail⟩ :=
        Outcome.exists_front_of_foldlM_error hfold
      cases name? with
      | none => cases hfail
      | some name =>
        refine ⟨rfl, front, name, parked, back, ms, rfl, declareParts_eq_some hfront, ?_⟩
        rw [Shape.merge_object_single, Outcome.map_eq_error_iff]
        cases hadd : Shape.addMember [] ms name parked.shape with
        | error path =>
          simpa [declarePart, hadd, bind, Except.bind, Except.mapError] using hfail
        | ok ms' =>
          simp [declarePart, hadd, bind, Except.bind, pure, Except.pure, Except.mapError] at hfail

end Group

/-- Entries that conflict with each other declare two kinds at the path of the conflict. -/
theorem apart_of_merge_error {trees : List (Option String × Tree)}
    {shapes : List (Option String × Shape)} {name : String} {shape : Shape}
    {ms : List (String × Shape)} {names : List String}
    (htrees : Tree.denoteEntries? trees = some (shapes ++ [(some name, shape)]))
    (hms : shapes.foldlM declare? [] = some ms)
    (h : Shape.merge [] (.object ms) (.object [(name, shape)]) = .error names) :
    (Tree.group .object trees).Apart names := by
  have hsorted := Tree.sorted_denoteEntries? trees htrees
  have hshape : shape.Sorted := hsorted (some name, shape) (by simp)
  obtain ⟨_, rfl, k, l, hne, hk, hl⟩ :=
    Shape.exists_differ_of_merge_error (Shape.sorted_object_single hshape) h
  cases names with
  | nil => exact absurd (Option.some.inj (hk.symm.trans hl)) hne
  | cons first names =>
    have hdeclares : ∀ {s : Shape} {kind : Kind}, (some first, s) ∈ shapes ++ [(some name, shape)] →
        s.kindAt? names = some kind →
          (Tree.group .object trees).Declares (first :: names) kind := by
      intro s kind hmem hkind
      obtain ⟨tree, htree, hdenote⟩ := Tree.exists_of_mem_denoteEntries? htrees hmem
      exact .member htree (Tree.declares_of_kindAt? hdenote hkind)
    obtain ⟨s, hs, hkind⟩ := exists_member_of_kindAt?
      (fun e he => hsorted e (List.mem_append_left _ he)) hms hk
    rw [Shape.kindAt?_object_cons, List.lookup_cons] at hl
    by_cases hname : first = name
    · subst hname
      exact ⟨k, l, hne, hdeclares (List.mem_append_left _ hs) hkind,
        hdeclares (List.mem_append_right _ (List.mem_singleton_self _)) (by simpa using hl)⟩
    · rw [beq_false_of_ne hname] at hl
      cases hl

/-- Entries with a conflict lead the body in which it is found. -/
theorem exists_apart_of_build {sources : Sources} {slots : Slots} {kind : GroupKind}
    {body : List Symbol} {names : List String} {front back : List Nat}
    (hcover : sources.Cover slots)
    (hlinear : slots.Linear (front ++ references body ++ back))
    (h : Group.build kind body slots = .error (.conflict names)) :
    kind = .object ∧ ∃ trees piece more, body = piece ++ more ∧
      EntriesText .object trees (sources.expand piece) ∧
      (more = [] ∨ ∃ tail, more = .char ',' :: tail) ∧ (Tree.group .object trees).Apart names := by
  rcases Group.build_cases kind hlinear with
    ⟨fault, hbody, hbuild⟩ | ⟨entries, parts, slots', hbody, hread, -, hbuild⟩
  · obtain ⟨entry, rfl⟩ := exists_entry_of_ofBody_error hbody
    cases hbuild.symm.trans h
  · rw [hbuild, Outcome.map_eq_error_iff] at h
    obtain ⟨rfl, done, name, parked, later, ms, rfl, hms, hmerge⟩ :=
      Group.exists_front_of_conflict h
    have hsplit : done ++ (some name, parked) :: later =
        (done ++ [(some name, parked)]) ++ later := by simp
    rw [hsplit] at hread
    obtain ⟨first, rest, next, rfl, hfirst⟩ := hread.exists_front
    have hne : first ≠ [] := by
      rintro rfl
      generalize hparts : done ++ [(some name, parked)] = parts at hfirst
      cases hfirst
      simp at hparts
    have hspell : Entry.SpellAll (first ++ rest) body :=
      (ofBody_eq_ok_iff.mp hbody).resolve_left fun h => hne (List.append_eq_nil_iff.mp h.1).1
    obtain ⟨piece, more, rfl, hpiece, hend⟩ := hspell.exists_front hne
    have hnames := (declareAll_eq_some_iff.mp (congrArg (Option.map Shape.object) hms)).1
    have hnamed : ∀ part ∈ done ++ [(some name, parked)], part.1 = none →
        GroupKind.object = .array := by
      intro part hpart hnone
      rcases List.mem_append.mp hpart with hpart | hpart
      · exact absurd hnone (hnames _ (List.mem_map_of_mem hpart))
      · rw [List.mem_singleton.mp hpart] at hnone
        cases hnone
    obtain ⟨trees, htexts, htrees⟩ := hcover.entriesText hpiece hfirst hnamed
    have hshapes : Tree.denoteEntries? trees =
        some (Group.shapesOf done ++ [(some name, parked.shape)]) := by
      rw [htrees]
      simp [Group.shapesOf]
    exact ⟨rfl, trees, piece, more, rfl, htexts, hend, apart_of_merge_error hshapes hms hmerge⟩

/-! ### Conflicts of a rule -/

/-- The text of a group that is built with a conflict begins with the two declarations. -/
theorem exists_apart_of_step {sources : Sources} {rule : List Char} {state : Reduction}
    {names : List String} (htraced : sources.Traced rule state) (hlinear : state.Linear)
    (h : state.step = .error (.conflict names)) :
    ∃ before, ApartBehind rule (before ++ ['\x7b']) names := by
  rcases Reduction.step_error_cases h with hscan | ⟨group, hfound, hbuild⟩
  · rcases innermost?_error_cases hscan with ⟨_, he⟩ | ⟨_, _, he⟩ <;> cases he
  · have htext := (innermost?_eq_some_iff.mp hfound).1
    rw [Reduction.Linear, htext, Reduction.references_innermost] at hlinear
    obtain ⟨hkind, trees, piece, more, hbody, htexts, hend, hapart⟩ :=
      exists_apart_of_build htraced.cover hlinear hbuild
    have hrest : EndsEntry (sources.expand more ++ GroupKind.object.closer ::
        sources.expand group.after) :=
      endsEntry_expand hend (endsEntries_closer .object _).endsEntry
    refine ⟨sources.expand group.before, trees, ⟨sources.expand piece, _, ?_, htexts, hrest⟩,
      hapart⟩
    rw [← htraced.expand_eq, htext, Innermost.text, hbody, hkind]
    simp [Sources.expand_append, Sources.expandSymbol, GroupKind.opener]

/-- The rule that ends in a conflict begins with the two declarations. -/
theorem exists_apart_of_finish {sources : Sources} {rule : List Char} {state : Reduction}
    {names : List String} (htraced : sources.Traced rule state) (hlinear : state.Linear)
    (h : state.finish = .error (.conflict names)) : ApartBehind rule [] names := by
  have hbuild : Group.build .object state.text state.slots = .error (.conflict names) :=
    (Group.build_trim _ _ _).symm.trans (hlinear.build_of_finish_error h)
  have hwhole : state.slots.Linear ([] ++ references state.text ++ []) := by
    rwa [List.nil_append, List.append_nil]
  obtain ⟨-, trees, piece, more, hbody, htexts, hend, hapart⟩ :=
    exists_apart_of_build htraced.cover hwhole hbuild
  refine ⟨trees, ⟨sources.expand piece, sources.expand more ++ [], ?_, htexts,
    endsEntry_expand hend endsEntries_nil.endsEntry⟩, hapart⟩
  rw [← htraced.expand_eq, hbody, Sources.expand_append, List.append_nil]
  rfl

/-- A run with a conflict has found the start of a body with the two declarations. -/
theorem exists_apart_of_run {rule : List Char} {names : List String}
    (h : (Reduction.start rule).run = .error (.conflict names)) :
    ∃ front, ApartBehind rule front names ∧ (AtTop front ∨ Inside front) := by
  obtain ⟨last, hsteps, hlast⟩ := Reduction.run_eq_error_iff.mp h
  obtain ⟨sources, htraced⟩ := hsteps.traced (Sources.traced_start rule)
  have hlinear := Reduction.Steps.linear hsteps (Reduction.linear_start rule)
  rcases hlast with hstep | ⟨-, hfinish⟩
  · obtain ⟨before, hapart⟩ := exists_apart_of_step htraced hlinear hstep
    exact ⟨_, hapart, atTop_or_inside_iff.mpr (.inr ⟨before, rfl⟩)⟩
  · exact ⟨[], exists_apart_of_finish htraced hlinear hfinish, .inl (.inl rfl)⟩

/-- A rule that is refused for a conflict holds a body that is led by the two declarations, and the
path of the conflict starts there: at the top, or inside a group, whose own path is left out. -/
theorem exists_apart_of_compile {rule : String} {error : Error} {names : List String}
    (h : compile rule = .error error) (hnames : error.conflictPath? = some names) :
    error = .fault rule (.conflict names) ∧
      ∃ front, ApartBehind rule.toList front names ∧ (AtTop front ∨ Inside front) := by
  obtain ⟨_, rfl⟩ | ⟨_, rfl⟩ | rfl | ⟨fault, rfl, hrun⟩ := compile_error_cases h
  · cases hnames
  · cases hnames
  · cases hnames
  · rcases Error.conflictPath?_eq_some_iff.mp hnames with he | ⟨_, he⟩
    · cases he
    · cases he
      exact ⟨rfl, exists_apart_of_run hrun⟩

end Allowlist.Rule

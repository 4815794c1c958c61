import Allowlist.Proofs.Rule.Reduction

/-!
# Proofs.Rule.Soundness — what is accepted derives from the grammar

Beside a run we keep the text and the tree that every parked group was built from (`Sources`).  The
invariant is `Traced`: with each reference written out, the working text is the rule again, and each
parked group is the shape of its tree.  A step adds one source and keeps the invariant; at the end
the whole rule is read off it.
-/

namespace Allowlist.Rule

open Allowlist.Rule.Symbol

/-- The tree and the text of each group, in the order in which the groups were parked. -/
abbrev Sources := List (Tree × List Char)

namespace Sources

/-- The characters that a symbol stands for. -/
def expandSymbol (sources : Sources) : Symbol → List Char
  | .char c => [c]
  | .group index => sources[index]?.elim [] (·.2)

/-- The text with every reference written out. -/
def expand (sources : Sources) (text : List Symbol) : List Char :=
  text.flatMap sources.expandSymbol

theorem expand_append (sources : Sources) (text more : List Symbol) :
    sources.expand (text ++ more) = sources.expand text ++ sources.expand more :=
  List.flatMap_append

@[simp] theorem expand_cons (sources : Sources) (s : Symbol) (text : List Symbol) :
    sources.expand (s :: text) = sources.expandSymbol s ++ sources.expand text :=
  List.flatMap_cons

@[simp] theorem expand_ofChars (sources : Sources) (cs : List Char) :
    sources.expand (ofChars cs) = cs := by
  induction cs with
  | nil => rfl
  | cons c cs ih =>
    rw [ofChars_cons, expand_cons, ih]
    rfl

theorem expandSymbol_group {sources : Sources} {index : Nat} {tree : Tree} {u : List Char}
    (h : sources[index]? = some (tree, u)) : sources.expandSymbol (.group index) = u := by
  simp [expandSymbol, h]

/-- A source more does not change what the references before it stand for. -/
theorem expand_concat {sources : Sources} {text : List Symbol}
    (h : ∀ index, Symbol.group index ∈ text → index < sources.length)
    (source : Tree × List Char) : expand (sources ++ [source]) text = sources.expand text := by
  refine List.flatMap_congr fun s hs => ?_
  cases s with
  | char c => rfl
  | group index => simp only [expandSymbol, List.getElem?_append_left (h index hs)]

/-- A group that is replaced by a reference to its source stands for the same text. -/
theorem expand_replace {sources : Sources} {group : Innermost}
    (hlt : ∀ index, Symbol.group index ∈ group.text → index < sources.length) (tree : Tree) :
    expand (sources ++ [(tree,
        group.kind.opener :: (sources.expand group.body ++ [group.kind.closer]))])
        (group.replace sources.length) = sources.expand group.text := by
  have hbefore : ∀ index, Symbol.group index ∈ group.before → index < sources.length :=
    fun index hi => hlt index (by simp [Innermost.text, hi])
  have hafter : ∀ index, Symbol.group index ∈ group.after → index < sources.length :=
    fun index hi => hlt index (by simp [Innermost.text, hi])
  rw [Innermost.replace, expand_append, expand_cons, expand_concat hbefore, expand_concat hafter,
    expandSymbol_group List.getElem?_concat_length, Innermost.text]
  simp [expand_append, expandSymbol]

variable [Shape.MemberOrder]

/-- Every parked group is the shape of a tree, was written as the source says and is not too
deep. -/
def Cover (sources : Sources) (slots : Slots) : Prop :=
  ∀ (index : Nat) (parked : Parked), slots[index]? = some (some parked) →
    ∃ tree u, sources[index]? = some (tree, u) ∧ GroupText tree u ∧
      tree.denote? = some parked.shape ∧ parked.shape.depth ≤ maxDepth

theorem Cover.read {sources : Sources} {slots slots' : Slots} {entry : Entry}
    {part : Option String × Parked} (hc : sources.Cover slots)
    (h : slots.read entry = .ok (part, slots')) : sources.Cover slots' :=
  fun index parked hp => hc index parked (Slots.read_mono h hp)

theorem Cover.readAll {sources : Sources} {slots slots' : Slots} {entries : List Entry}
    {parts : List (Option String × Parked)} (hc : sources.Cover slots)
    (h : slots.ReadAll entries parts slots') : sources.Cover slots' :=
  fun index parked hp => hc index parked (h.mono hp)

theorem Cover.park {sources : Sources} {slots : Slots} {tree : Tree} {u : List Char}
    {parked : Parked} (hc : sources.Cover slots) (hlength : slots.length = sources.length)
    (hu : GroupText tree u) (htree : tree.denote? = some parked.shape)
    (hdepth : parked.shape.depth ≤ maxDepth) :
    Cover (sources ++ [(tree, u)]) (slots ++ [some parked]) := by
  intro index p hp
  rcases Slots.getElem?_park hp with hp | ⟨rfl, rfl⟩
  · obtain ⟨tree', u', hsource, hrest⟩ := hc index p hp
    obtain ⟨hlt, -⟩ := List.getElem?_eq_some_iff.mp hsource
    exact ⟨tree', u', by rw [List.getElem?_append_left hlt, hsource], hrest⟩
  · rw [hlength, List.getElem?_concat_length]
    exact ⟨tree, u, rfl, hu, htree, hdepth⟩

/-! ### Bodies -/

/-- An entry whose references are written out is an entry of the grammar. -/
theorem Cover.entryText {sources : Sources} {slots slots' : Slots} {kind : GroupKind}
    {entry : Entry} {text : List Symbol} {part : Option String × Parked}
    (hc : sources.Cover slots) (hspell : entry.Spells text)
    (hread : slots.read entry = .ok (part, slots')) (hnamed : part.1 = none → kind = .array) :
    ∃ tree, EntryText kind (part.1, tree) (sources.expand text) ∧
      tree.denote? = some part.2.shape := by
  rcases Slots.read_cases hread with ⟨name, rfl, rfl, -⟩ | ⟨index, htake, hentry⟩
  · cases hspell with
    | key hp hk hq =>
      rw [expand_ofChars]
      exact ⟨.key, .key hp hk hq, rfl⟩
  · have hslot := (Slots.take_eq_ok_iff.mp htake).1
    obtain ⟨tree, u, hsource, hu, htree, -⟩ := hc index part.2 hslot
    rcases hentry with ⟨name, rfl, hname⟩ | ⟨rfl, hname⟩
    · cases hspell with
      | @keyed _ _ p k q r s hp hk hq hr hs =>
        refine ⟨tree, ?_, htree⟩
        have hentry : EntryText kind (some name, tree) _ := .keyed hp hk hq hr hu hs
        simpa [expand_append, expandSymbol_group hsource, hname] using hentry
    · cases hspell with
      | group hp hq =>
        refine ⟨tree, ?_, htree⟩
        rw [hnamed hname, hname]
        simpa [expand_append, expandSymbol_group hsource] using EntryText.alone hp hu hq

theorem Cover.entriesText {sources : Sources} {slots slots' : Slots} {kind : GroupKind}
    {entries : List Entry} {text : List Symbol} {parts : List (Option String × Parked)}
    (hc : sources.Cover slots) (hspell : Entry.SpellAll entries text)
    (hread : slots.ReadAll entries parts slots')
    (hnamed : ∀ part ∈ parts, part.1 = none → kind = .array) :
    ∃ trees, EntriesText kind trees (sources.expand text) ∧
      Tree.denoteEntries? trees = some (Group.shapesOf parts) := by
  induction hspell generalizing slots parts with
  | one hfirst =>
    cases hread with
    | @cons _ _ _ _ _ part _ hpart hrest =>
      cases hrest
      obtain ⟨tree, htext, htree⟩ := hc.entryText hfirst hpart (hnamed part (by simp))
      refine ⟨[(part.1, tree)], .one htext, ?_⟩
      exact Tree.denoteEntries?_cons_eq_some_iff.mpr ⟨_, _, htree, rfl, rfl⟩
  | @cons entry first entries rest hfirst hmore ih =>
    cases hread with
    | @cons _ _ _ _ _ part parts hpart hrest =>
      obtain ⟨hname, hnames⟩ := List.forall_mem_cons.mp hnamed
      obtain ⟨tree, htext, htree⟩ := hc.entryText hfirst hpart hname
      obtain ⟨trees, htexts, htrees⟩ := ih (hc.read hpart) hrest hnames
      refine ⟨(part.1, tree) :: trees, ?_, ?_⟩
      · rw [expand_append, expand_cons]
        exact .cons htext htexts
      · exact Tree.denoteEntries?_cons_eq_some_iff.mpr ⟨_, _, htree, htrees, rfl⟩

end Sources

variable [Shape.MemberOrder]

/-- The body of a built group derives from the grammar, with a tree that denotes the group. -/
theorem Sources.Cover.bodyText {sources : Sources} {slots slots' : Slots} {kind : GroupKind}
    {body : List Symbol} {parked : Parked} (hc : sources.Cover slots) (hs : slots.Exact)
    (h : Group.build kind body slots = .ok (parked, slots')) :
    ∃ trees, BodyText kind trees (sources.expand body) ∧
      (Tree.group kind trees).denote? = some parked.shape := by
  obtain ⟨entries, parts, hbody, hread, hshape, -, -⟩ := (Group.build_eq_ok_iff hs).mp h
  rcases ofBody_eq_ok_iff.mp hbody with ⟨rfl, hblank⟩ | hspell
  · obtain ⟨p, hp, rfl⟩ := trim_eq_nil_iff.mp hblank
    cases hread
    rw [expand_ofChars]
    exact ⟨[], .blank hp, Tree.denote?_group_eq_some_iff.mpr ⟨[], rfl, hshape⟩⟩
  · have hnamed : ∀ part ∈ parts, part.1 = none → kind = .array := fun part hpart hname =>
      eq_array_of_groupShape? hshape (List.mem_map_of_mem hpart) hname
    obtain ⟨trees, htexts, htrees⟩ := hc.entriesText hspell hread hnamed
    exact ⟨trees, .entries htexts, Tree.denote?_group_eq_some_iff.mpr ⟨_, htrees, hshape⟩⟩

/-! ### The invariant -/

/-- With every reference written out the working text is the rule again. -/
structure Sources.Traced (sources : Sources) (rule : List Char) (state : Reduction) : Prop where
  length_eq : sources.length = state.slots.length
  expand_eq : sources.expand state.text = rule
  group_lt : ∀ index, Symbol.group index ∈ state.text → index < sources.length
  cover : sources.Cover state.slots
  exact : state.slots.Exact

theorem Sources.traced_start (rule : List Char) :
    Sources.Traced [] rule (Reduction.start rule) := by
  refine ⟨rfl, expand_ofChars _ rule, ?_, ?_, ?_⟩
  · intro index h
    obtain ⟨c, -, he⟩ := List.mem_map.mp h
    cases he
  · intro index parked h
    simp [Reduction.start] at h
  · intro index parked h
    simp [Reduction.start] at h

/-- The group that a step builds is one source more. -/
theorem Sources.Traced.next {sources : Sources} {rule : List Char} {state next : Reduction}
    (ht : sources.Traced rule state) (h : state.Next next) :
    ∃ source, Sources.Traced (sources ++ [source]) rule next := by
  have hexact := h.exact ht.exact
  obtain ⟨group, parked, slots, htext, -, hbuild, rfl⟩ := Reduction.next_iff.mp h
  obtain ⟨trees, hbody, htree⟩ := ht.cover.bodyText ht.exact hbuild
  obtain ⟨entries, parts, -, hread, -, hdepth, hle⟩ := (Group.build_eq_ok_iff ht.exact).mp hbuild
  have hlength : slots.length = sources.length := by
    rw [hread.length_eq, ht.length_eq]
  have hlt : ∀ index, Symbol.group index ∈ group.text → index < sources.length := by
    intro index hi
    exact ht.group_lt index (by rwa [htext])
  have hgroup := GroupText.group hbody
  refine ⟨(.group group.kind trees,
    group.kind.opener :: (sources.expand group.body ++ [group.kind.closer])), ?_, ?_, ?_, ?_, hexact⟩
  · simp [hlength]
  · -- the text of the new source is the text that the reference replaces
    rw [hlength, expand_replace hlt, ← htext]
    exact ht.expand_eq
  · intro index hi
    rw [List.length_append, List.length_singleton]
    simp only [Innermost.replace, List.mem_append, List.mem_cons, Symbol.group.injEq] at hi
    rcases hi with hi | rfl | hi
    · have hold := hlt index (by simp [Innermost.text, hi])
      omega
    · omega
    · have hold := hlt index (by simp [Innermost.text, hi])
      omega
  · exact (ht.cover.readAll hread).park hlength hgroup htree (hdepth ▸ hle)

theorem Reduction.Steps.traced {sources : Sources} {rule : List Char} {state last : Reduction}
    (h : state.Steps last) (ht : sources.Traced rule state) :
    ∃ sources : Sources, sources.Traced rule last := by
  induction h with
  | refl => exact ⟨sources, ht⟩
  | tail _ hnext ih =>
    obtain ⟨sources, ht⟩ := ih
    obtain ⟨source, ht⟩ := ht.next hnext
    exact ⟨_, ht⟩

/-! ### Whole rules -/

/-- What a text without groups denotes is the shape of a derivation of the whole rule. -/
theorem Sources.Traced.finish {sources : Sources} {rule : List Char} {state : Reduction}
    {shape : Shape} (ht : sources.Traced rule state) (hblank : ¬ Blank rule)
    (h : state.finish = .ok shape) :
    ∃ tree, Spells tree rule ∧ tree.denote? = some shape ∧ shape.depth ≤ maxDepth := by
  obtain ⟨parked, rfl, ⟨index, htrim, hslot⟩ | ⟨-, slots, hbuild⟩⟩ :=
    Reduction.finish_eq_ok_iff.mp h
  · obtain ⟨tree, u, hsource, hu, htree, hle⟩ := ht.cover index parked hslot
    obtain ⟨p, q, hp, hq, htext⟩ := exists_pad state.text
    have hrule := ht.expand_eq
    rw [htext, htrim, expand_append, expand_append, expand_ofChars, expand_ofChars, expand_cons,
      expandSymbol_group hsource] at hrule
    refine ⟨tree, ?_, htree, hle⟩
    rw [← hrule]
    simpa [expand] using Spells.group hp hu hq
  · rw [Group.build_trim] at hbuild
    obtain ⟨trees, hbody, htree⟩ := ht.cover.bodyText ht.exact hbuild
    obtain ⟨entries, parts, -, -, -, hdepth, hle⟩ := (Group.build_eq_ok_iff ht.exact).mp hbuild
    rw [ht.expand_eq] at hbody
    cases hbody with
    | blank hp => exact absurd hp hblank
    | entries htexts => exact ⟨_, .entries htexts, htree, hdepth ▸ hle⟩

/-- Every shape that a run ends in is the shape of a derivation of the rule. -/
theorem exists_spells_of_run {rule : List Char} {shape : Shape} (hblank : ¬ Blank rule)
    (h : (Reduction.start rule).run = .ok shape) :
    ∃ tree, Spells tree rule ∧ tree.denote? = some shape ∧ shape.depth ≤ maxDepth := by
  obtain ⟨last, hsteps, -, hfinish⟩ := Reduction.run_eq_ok_iff.mp h
  obtain ⟨sources, ht⟩ := hsteps.traced (Sources.traced_start rule)
  exact ht.finish hblank hfinish

end Allowlist.Rule

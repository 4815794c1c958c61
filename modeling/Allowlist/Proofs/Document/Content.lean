import Allowlist.Proofs.Document.Place
import Allowlist.Proofs.Document.Stored

/-!
# Proofs.Document.Content — a document holds the values of its keys and nothing else

Where a document exists, each value of each key is one of its strings, at the place that the key
names; positions only order the elements of an array, before what is appended to it
(`keeps_every_value`).
-/

namespace Allowlist

/-- What one key puts in its place: the text that it has, or the list if it has not exactly one. -/
def Data.ofItems : List String → Data
  | [item] => .text item
  | items => .texts items

namespace Put

/-- The placements make an array of the address: one of them counts or appends there. -/
def MakeArray (puts : List Put) (address : List Step) : Prop :=
  .append ∉ address ∧
    ∃ step rest items, (address ++ step :: rest, items) ∈ puts ∧ step.isMember = false

/-- The list holds, for each position that is used at the address, in increasing order, what the
document has there, and then the texts that are appended at the address, in order. -/
def Lists (puts : List Put) (document : Data) (address : List Step) (items : List Data) : Prop :=
  ∃ positions : List Nat, positions.Pairwise (· < ·) ∧
    (∀ i, i ∈ positions ↔ after (.index i) (afterAll address puts) ≠ []) ∧
    items.map some =
      positions.map (fun i => document.follow? (resolve puts (address ++ [.index i]))) ++
        (appended (afterAll address puts)).map fun s => some (.text s)

end Put

namespace Slot

open Put

theorem toData_leaf_eq_ofItems (items : List String) : (leaf items).toData = .ofItems items := by
  match items with
  | [] => rfl
  | [_] => rfl
  | _ :: _ :: _ => rfl

theorem at?_append (slot : Slot) (front back : List Step) :
    slot.at? (front ++ back) = (slot.at? front).bind (at? back) := by
  induction front generalizing slot with
  | nil => rw [List.nil_append, at?_nil, Option.bind_some]
  | cons step front ih =>
    rw [List.cons_append, at?_cons, at?_cons slot step front, Option.bind_assoc]
    exact congrArg _ (funext ih)

/-- No part stands behind an appending step. -/
theorem append_notMem_of_at? {slot part : Slot} {steps : List Step}
    (h : slot.at? steps = some part) : .append ∉ steps := by
  induction steps generalizing slot with
  | nil => exact List.not_mem_nil
  | cons step steps ih =>
    obtain ⟨child, hchild, hpart⟩ := Option.bind_eq_some_iff.mp (at?_cons slot _ _ ▸ h)
    rw [List.mem_cons, not_or]
    refine ⟨?_, ih hpart⟩
    rintro rfl
    obtain ⟨_, _, -, he, -⟩ | ⟨_, _, _, -, he, -⟩ := at?_singleton_cases hchild <;> cases he

namespace Holds

variable {root part : Slot} {puts : List Put} {steps address : List Step}

/-- Where a placement ends, its items stand. -/
theorem follow?_of_mem (h : root.Holds puts) {items : List String} (hsteps : .append ∉ steps)
    (hmem : (steps, items) ∈ puts) :
    root.toData.follow? (resolve puts steps) = some (.ofItems items) := by
  have hhere : ([], items) ∈ afterAll steps puts := by
    rw [mem_afterAll, List.append_nil]
    exact hmem
  obtain ⟨part, hpart⟩ := h.exists_at? hsteps (List.ne_nil_of_mem hhere)
  have hholds := h.of_at? hpart
  rw [h.follow?_resolve hpart]
  generalize afterAll steps puts = here at hhere hholds
  cases hholds with
  | empty => cases hhere
  | leaf items' =>
    cases List.mem_singleton.mp hhere
    rw [toData_leaf_eq_ofItems]
  | object _ hgo _ _ _ =>
    obtain ⟨_, _, he, -⟩ := hgo _ hhere
    cases he
  | array _ hgo _ _ _ =>
    obtain ⟨_, _, he, -⟩ := hgo _ hhere
    cases he

/-- An array of the tree becomes a list of its elements, by position, and of the appended texts. -/
theorem lists_of_at? (h : root.Holds puts) {elements : List (Nat × Slot)} {texts : List String}
    (hpart : root.at? address = some (.array elements texts)) :
    ∃ items, root.toData.follow? (resolve puts address) = some (.list items) ∧
      Lists puts root.toData address items := by
  have hholds := h.of_at? hpart
  obtain ⟨hsorted, -, -, rfl⟩ := hholds.of_elements? rfl
  refine ⟨_, h.follow?_resolve hpart, elements.map Prod.fst, ?_, fun i => ?_, ?_⟩
  · rw [List.pairwise_map]
    exact hsorted
  · rw [← hholds.isSome_lookup_iff, Option.isSome_iff_exists, List.mem_map]
    simp only [hsorted.lookup_eq_some_iff, Prod.exists, exists_and_right, exists_eq_right]
  · rw [elementsData_eq_map, List.map_append, List.map_map, List.map_map, List.map_map]
    refine congrArg (· ++ _) (List.map_congr_left fun element helement => ?_)
    have hlookup := hsorted.lookup_eq_some_iff.mpr helement
    have helementAt : root.at? (address ++ [.index element.1]) = some element.2 := by
      rw [at?_append, hpart, Option.bind_some]
      simp [Slot.at?, hlookup]
    exact (h.follow?_resolve helementAt).symm

/-- Where the placements make an array, there is one. -/
theorem exists_array (h : root.Holds puts) (harray : MakeArray puts address) :
    ∃ elements texts, root.at? address = some (.array elements texts) := by
  obtain ⟨haddress, step, rest, items, hmem, hstep⟩ := harray
  rw [← mem_afterAll] at hmem
  obtain ⟨part, hpart⟩ := h.exists_at? haddress (List.ne_nil_of_mem hmem)
  have hholds := h.of_at? hpart
  generalize afterAll address puts = here at hmem hholds
  cases hholds with
  | empty => cases hmem
  | leaf items' => cases List.mem_singleton.mp hmem
  | object _ hgo _ _ _ =>
    obtain ⟨_, _, he, hmember⟩ := hgo _ hmem
    cases he
    exact absurd hmember (by simp [hstep])
  | array _ _ _ _ _ => exact ⟨_, _, hpart⟩

/-- A list of the document is what one placement puts in its place, or an array that the
placements make. -/
theorem list_cases (h : root.Holds puts) {items : List Data}
    (hlist : root.toData.follow? steps = some (.list items)) :
    (∃ raw texts, (raw, texts) ∈ puts ∧ .append ∉ raw ∧ resolve puts raw = steps ∧
        .list items = Data.ofItems texts) ∨
      ∃ address, MakeArray puts address ∧ resolve puts address = steps := by
  obtain ⟨raw, part, hpart, hsteps, hdata⟩ | ⟨s, he⟩ := h.follow?_cases hlist
  · have hraw := append_notMem_of_at? hpart
    have hholds := h.of_at? hpart
    generalize hhere : afterAll raw puts = here at hholds
    cases hholds with
    | empty => cases hdata
    | leaf texts =>
      have hmem : ([], texts) ∈ afterAll raw puts := hhere ▸ List.mem_singleton_self _
      rw [mem_afterAll, List.append_nil] at hmem
      exact .inl ⟨raw, texts, hmem, hraw, hsteps, hdata.trans (toData_leaf_eq_ofItems texts)⟩
    | object _ _ _ _ _ => cases hdata
    | array hne hgo _ _ _ =>
      obtain ⟨put, hput⟩ := List.exists_mem_of_ne_nil _ hne
      obtain ⟨step, rest, he, hstep⟩ := hgo put hput
      have hmem : (step :: rest, put.2) ∈ afterAll raw puts := by
        rw [hhere, ← he]
        exact hput
      exact .inr ⟨raw, ⟨hraw, step, rest, put.2, mem_afterAll.mp hmem, hstep⟩, hsteps⟩
  · cases he

end Holds

end Slot

namespace Document

open Put

/-- The steps of a key that does not end in `[]` do not append. -/
theorem append_notMem_of_steps? {key : String} {steps : List Step}
    (h : Path.steps? key = some steps) (hkey : ¬ ['[', ']'] <:+ key.toList) :
    .append ∉ steps := by
  intro happend
  obtain ⟨hops, htokens, rfl⟩ := Option.map_eq_some_iff.mp h
  obtain ⟨hop, hmem, hreading⟩ := List.mem_map.mp happend
  obtain rfl := Hop.reading_eq_append_iff.mp hreading
  exact hkey ((Path.tokenize?_eq_some_iff.mp htokens).suffix_of_anonymous hmem)

/-- Keys that fill a tree are paths whose numbers fit. -/
theorem exists_steps?_of_slots {values : Values} {root : Slot} (h : slots values = .ok root)
    {key : String} {items : List String} (hmem : (key, items) ∈ values.entries) :
    ∃ steps, Path.steps? key = some steps ∧ ∀ step ∈ steps, step.Fits := by
  have hkey : key ∈ values.keys := List.mem_map_of_mem hmem
  obtain ⟨front, back, hkeys⟩ := List.append_of_mem hkey
  exact (joinInTurn_of_slots h front key back hkeys).1

/-- A document without keys is empty, and any other shows the tree of its keys. -/
theorem holds_of_ofValues {values : Values} {document : Data} (h : ofValues values = .ok document) :
    (values.entries = [] ∧ document = .object []) ∨
      ∃ root, slots values = .ok root ∧ root.Holds (ofEntries values.entries) ∧ root ≠ .empty ∧
        document = root.toData := by
  unfold ofValues at h
  obtain ⟨root, hroot, h⟩ := Outcome.bind_eq_ok_iff.mp h
  have hholds := holds_slots hroot
  split at h
  · cases h
    refine .inl ⟨?_, rfl⟩
    -- each key would have left its placement
    rw [List.eq_nil_iff_forall_not_mem]
    rintro ⟨key, items⟩ hmem
    obtain ⟨steps, hsteps, -⟩ := exists_steps?_of_slots hroot hmem
    have hput := mem_ofEntries.mpr ⟨key, hmem, hsteps⟩
    rw [hholds.eq_nil] at hput
    cases hput
  · next hne =>
    cases h
    exact .inr ⟨root, hroot, hholds, hne, rfl⟩

/-- No value is lost, invented or moved.  The document has as many strings as the keys have values,
and no null.  The steps of a key that does not end in `[]`, with ranks for positions, lead to what
the key puts there.  Each array that keys make lists its elements by increasing position and then
what is appended, in the order of the keys; and every list of the document is one of these, or the
values of one key. -/
theorem keeps_every_value {values : Values} {document : Data} (h : ofValues values = .ok document) :
    document.strings.length = values.toList.length ∧
      .null ∉ document.leaves ∧
      (∀ key items, (key, items) ∈ values.entries → ¬ ['[', ']'] <:+ key.toList →
        ∃ steps, Path.steps? key = some steps ∧
          document.follow? (resolve (ofEntries values.entries) steps) = some (.ofItems items)) ∧
      (∀ address, MakeArray (ofEntries values.entries) address →
        ∃ items,
          document.follow? (resolve (ofEntries values.entries) address) = some (.list items) ∧
          Lists (ofEntries values.entries) document address items) ∧
      ∀ steps items, document.follow? steps = some (.list items) →
        (∃ key raw texts, (key, texts) ∈ values.entries ∧ Path.steps? key = some raw ∧
            .append ∉ raw ∧ resolve (ofEntries values.entries) raw = steps ∧
            .list items = Data.ofItems texts) ∨
          ∃ address, MakeArray (ofEntries values.entries) address ∧
            resolve (ofEntries values.entries) address = steps := by
  obtain ⟨hnil, rfl⟩ | ⟨root, hroot, hholds, hne, rfl⟩ := holds_of_ofValues h
  · rw [Values.toList, hnil]
    refine ⟨rfl, List.not_mem_nil, nofun, ?_, fun steps items hlist => ?_⟩
    · rintro address ⟨-, _, _, _, hmem, -⟩
      cases hmem
    · cases Data.follow?_object_nil hlist
  · have hleaves := hholds.leaves_toData hne
    refine ⟨?_, ?_, fun key items hmem hkey => ?_, fun address harray => ?_,
      fun steps items hlist => ?_⟩
    · have hstrings : root.toData.strings = root.stored := by
        rw [Data.strings, hleaves, List.filterMap_map]
        exact List.filterMap_some
      have hstored := (stored_slots hroot).length_eq
      rw [hstrings, hstored, Values.toList, List.length_flatMap, List.length_flatMap]
      simp
    · rw [hleaves]
      simp
    · obtain ⟨steps, hsteps, -⟩ := exists_steps?_of_slots hroot hmem
      exact ⟨steps, hsteps, hholds.follow?_of_mem (append_notMem_of_steps? hsteps hkey)
        (mem_ofEntries.mpr ⟨key, hmem, hsteps⟩)⟩
    · obtain ⟨elements, texts, hpart⟩ := hholds.exists_array harray
      exact hholds.lists_of_at? hpart
    · obtain ⟨raw, texts, hput, hraw, hsteps, hitems⟩ | harray := hholds.list_cases hlist
      · obtain ⟨key, hmem, hkey⟩ := mem_ofEntries.mp hput
        exact .inl ⟨key, raw, texts, hmem, hkey, hraw, hsteps, hitems⟩
      · exact .inr harray

/-- Counted elements stand in the order of their numbers, not of their keys, and before those that
are appended. -/
theorem keeps_every_value_counted :
    ofValues ⟨[("a[10]", ["x"]), ("a[2]", ["y"]), ("a[]", ["z", ""])]⟩ =
        .ok (.object [("a", .list [.text "y", .text "x", .text "z", .text ""])]) ∧
      (Data.object [("a", .list [.text "y", .text "x", .text "z", .text ""])]).strings.length =
        (Values.mk [("a[10]", ["x"]), ("a[2]", ["y"]), ("a[]", ["z", ""])]).toList.length := by
  have hfirst : addKey .empty "a[10]" ["x"] =
      .ok (.object [("a", .array [(10, .leaf ["x"])] [])]) :=
    addKey_eq_ok_iff.mpr ⟨[.name "a", .bracket "10"], [.member "a", .index 10], by decide +kernel,
      by decide +kernel, rfl⟩
  have hsecond : addKey (.object [("a", .array [(10, .leaf ["x"])] [])]) "a[2]" ["y"] =
      .ok (.object [("a", .array [(2, .leaf ["y"]), (10, .leaf ["x"])] [])]) :=
    addKey_eq_ok_iff.mpr ⟨[.name "a", .bracket "2"], [.member "a", .index 2], by decide +kernel,
      by decide +kernel, rfl⟩
  have hthird : addKey (.object [("a", .array [(2, .leaf ["y"]), (10, .leaf ["x"])] [])]) "a[]"
      ["z", ""] = .ok (.object [("a", .array [(2, .leaf ["y"]), (10, .leaf ["x"])] ["z", ""])]) :=
    addKey_eq_ok_iff.mpr ⟨[.name "a", .anonymous], [.member "a", .append], by decide +kernel,
      by decide +kernel, rfl⟩
  have hslots : slots ⟨[("a[10]", ["x"]), ("a[2]", ["y"]), ("a[]", ["z", ""])]⟩ =
      .ok (.object [("a", .array [(2, .leaf ["y"]), (10, .leaf ["x"])] ["z", ""])]) := by
    simp only [slots, Outcome.foldlM_cons_eq_ok_iff]
    exact ⟨_, hfirst, _, hsecond, _, hthird, rfl⟩
  have hdocument : ofValues ⟨[("a[10]", ["x"]), ("a[2]", ["y"]), ("a[]", ["z", ""])]⟩ =
      .ok (.object [("a", .list [.text "y", .text "x", .text "z", .text ""])]) := by
    rw [ofValues, hslots]
    rfl
  exact ⟨hdocument, (keeps_every_value hdocument).1⟩

end Document

end Allowlist

import Allowlist.Proofs.Document.Content
import Allowlist.Proofs.Document.Flatten
import Allowlist.Proofs.Values
import Mathlib.Data.List.Pairwise

/-!
# Proofs.Document.Roundtrip — a flattened document is read back

The keys of a flattened document come in their own order, not in that of the document.  But a tree
that holds the placements of a document, in any order, becomes this document again
(`Slot.Holds.toData_eq`), and the keys never conflict, so flattening loses nothing
(`Document.ofValues_flatten`).
-/

namespace Allowlist

open scoped List

/-! ### From placements to the document -/

namespace Slot

open Put

section Children

variable {κ : Type} [LT κ] [DecidableLT κ] [LE κ] [Std.IsLinearOrder κ] [Std.LawfulOrderLT κ]
variable [BEq κ] [LawfulBEq κ]

/-- Parts that hold what is under each child become the children, if each of them does. -/
theorem map_toData_eq {wrap : κ → Step} (hwrap : Function.Injective wrap)
    {parts : List (κ × Slot)} {children : List (κ × Data)} {below : κ × Data → List Put}
    {puts : List Put} (hparts : Keyed.Sorted parts) (hchildren : Keyed.Sorted children)
    (hne : ∀ part ∈ parts, part.2 ≠ .empty)
    (hholds : ∀ k, Slot.Holds ((parts.lookup k).getD .empty) (after (wrap k) puts))
    (hputs : puts ~ gather (children.map fun child => (wrap child.1, below child)))
    (hbelow : ∀ child ∈ children, below child ≠ [])
    (hpart : ∀ child ∈ children, ∀ slot puts, Slot.Holds slot puts → puts ~ below child →
      slot.toData = child.2) :
    parts.map (fun part => (part.1, part.2.toData)) = children := by
  have hsteps := Data.nodup_steps hchildren hwrap below
  have hafter : ∀ child ∈ children, after (wrap child.1) puts ~ below child := by
    intro child hmem
    have hgroup : (wrap child.1, below child) ∈
        children.map fun child => (wrap child.1, below child) :=
      List.mem_map_of_mem hmem
    exact after_gather hsteps hgroup ▸ hputs.filterMap _
  have hsorted : Keyed.Sorted (parts.map fun part => (part.1, part.2.toData)) := by
    rw [Keyed.Sorted, List.pairwise_map]
    exact hparts
  refine hsorted.eq_of_mem_iff hchildren ?_
  rintro ⟨key, data⟩
  rw [List.mem_map]
  constructor
  · rintro ⟨⟨k, slot⟩, hmem, he⟩
    cases he
    have hslot := hholds k
    rw [hparts.lookup_eq_some_iff.mpr hmem, Option.getD_some] at hslot
    by_cases hk : k ∈ children.map Prod.fst
    · obtain ⟨⟨_, data⟩, hchild, rfl⟩ := List.mem_map.mp hk
      rw [hpart _ hchild slot _ hslot (hafter _ hchild)]
      exact hchild
    · -- nothing was placed under the key, but the part is there
      have hnone : wrap k ∉
          (children.map fun child => (wrap child.1, below child)).map Prod.fst := by
        intro hmem'
        simp only [List.map_map, List.mem_map, Function.comp_apply] at hmem'
        obtain ⟨child, hchild, he⟩ := hmem'
        exact hk (List.mem_map.mpr ⟨child, hchild, hwrap he⟩)
      have hnil : after (wrap k) puts ~ [] := after_gather_of_notMem hnone ▸ hputs.filterMap _
      rw [hnil.eq_nil] at hslot
      exact absurd hslot.eq_empty (hne _ hmem)
  · intro hchild
    have hslot := hholds key
    cases hl : parts.lookup key with
    | none =>
      rw [hl] at hslot
      have hnil := hafter _ hchild
      rw [hslot.eq_nil] at hnil
      exact absurd hnil.symm.eq_nil (hbelow _ hchild)
    | some slot =>
      rw [hl] at hslot
      refine ⟨(key, slot), Keyed.mem_of_lookup hl, ?_⟩
      rw [hpart _ hchild slot _ hslot (hafter _ hchild)]

end Children

namespace Holds

variable {slot : Slot} {puts : List Put}

/-- What goes on in an object is an object. -/
theorem exists_object (h : slot.Holds puts) (hne : puts ≠ []) (hgo : GoOn true puts) :
    ∃ members, slot = .object members := by
  obtain ⟨members, hmembers⟩ := h.exists_members?_iff.mpr hgo
  obtain ⟨hempty, -⟩ | hobject := members?_eq_some_iff.mp hmembers
  · exact absurd hempty (h.ne_empty hne)
  · exact ⟨members, hobject⟩

theorem exists_elements (h : slot.Holds puts) (hne : puts ≠ []) (hgo : GoOn false puts) :
    ∃ elements, slot = .array elements (appended puts) := by
  obtain ⟨elements, texts, helements⟩ := h.exists_elements?_iff.mpr hgo
  obtain ⟨-, -, -, rfl⟩ := h.of_elements? helements
  obtain ⟨hempty, -⟩ | harray := elements?_eq_some_iff.mp helements
  · exact absurd hempty (h.ne_empty hne)
  · exact ⟨elements, harray⟩

/-- Texts that are only appended become their list. -/
theorem toData_of_append {texts : List String} (h : slot.Holds [([.append], texts)]) :
    slot.toData = .texts texts := by
  have hgo : GoOn false [([Step.append], texts)] :=
    List.forall_mem_singleton.mpr ⟨.append, [], rfl, rfl⟩
  obtain ⟨elements, rfl⟩ := h.exists_elements (List.cons_ne_nil _ _) hgo
  obtain ⟨hsorted, hparts, hholds, -⟩ := h.of_elements? rfl
  have hnil : elements = [] := by
    rw [List.eq_nil_iff_forall_not_mem]
    rintro ⟨i, part⟩ hmem
    have hpart := hholds i
    rw [hsorted.lookup_eq_some_iff.mpr hmem] at hpart
    exact hparts _ hmem hpart.eq_empty
  rw [hnil, toData, elementsData, List.nil_append, Data.texts]
  simp [appended]

/-- What holds the placements of counted items becomes their list. -/
theorem toData_of_items {items : List Data} {below : Nat × Data → List Put}
    (h : slot.Holds puts) (hne : puts ≠ [])
    (hputs : puts ~ gather ((Data.numbered items).map fun child => (.index child.1, below child)))
    (hbelow : ∀ child ∈ Data.numbered items, below child ≠ [])
    (hpart : ∀ child ∈ Data.numbered items, ∀ slot puts, Slot.Holds slot puts →
      puts ~ below child → slot.toData = child.2) :
    slot.toData = .list items := by
  have hgo : GoOn false puts :=
    .of_perm hputs (goOn_gather (List.forall_mem_map.mpr fun _ _ => rfl))
  obtain ⟨elements, rfl⟩ := h.exists_elements hne hgo
  obtain ⟨hsorted, hparts, hholds, -⟩ := h.of_elements? rfl
  have helements : elements.map (fun part => (part.1, part.2.toData)) = Data.numbered items :=
    map_toData_eq (fun _ _ => Step.index.inj) hsorted (Data.sorted_numbered items) hparts hholds
      hputs hbelow hpart
  have hdatas : elementsData elements = items := by
    rw [← Data.map_snd_numbered items, ← helements, elementsData_eq_map, List.map_map]
    rfl
  have hnone : appended puts = [] := appended_eq_nil fun rest texts hmem => by
    obtain ⟨step, puts, rest, texts, hgroup, -, he⟩ := mem_gather.mp (hputs.mem_iff.mp hmem)
    cases he
    obtain ⟨child, -, he⟩ := List.mem_map.mp hgroup
    cases he
  rw [hnone, toData, hdatas, List.map_nil, List.append_nil]

/-- What holds the placements of members becomes their object. -/
theorem toData_of_members {members : List (String × Data)} {below : String × Data → List Put}
    (h : slot.Holds puts) (hne : puts ≠ []) (hmembers : Keyed.Sorted members)
    (hputs : puts ~ gather (members.map fun child => (.member child.1, below child)))
    (hbelow : ∀ child ∈ members, below child ≠ [])
    (hpart : ∀ child ∈ members, ∀ slot puts, Slot.Holds slot puts → puts ~ below child →
      slot.toData = child.2) :
    slot.toData = .object members := by
  have hgo : GoOn true puts :=
    .of_perm hputs (goOn_gather (List.forall_mem_map.mpr fun _ _ => rfl))
  obtain ⟨parts, rfl⟩ := h.exists_object hne hgo
  obtain ⟨hsorted, hparts, hholds⟩ := h.of_members? rfl
  have hdatas : parts.map (fun part => (part.1, part.2.toData)) = members :=
    map_toData_eq (fun _ _ => Step.member.inj) hsorted hmembers hparts hholds hputs hbelow hpart
  rw [toData, membersData_eq_map, hdatas]

/-- A tree that holds the placements of a document, in any order, becomes the document. -/
theorem toData_eq {data : Data} (hdata : data.Flattenable) {brief : List Step → Bool}
    (h : slot.Holds puts) (hputs : puts ~ data.puts brief) : slot.toData = data := by
  induction hdata generalizing slot puts brief with
  | text s =>
    obtain rfl := List.perm_singleton.mp hputs
    cases h with
    | leaf items => rfl
    | object _ hgo _ _ _ => simpa using hgo ([], [s]) (List.mem_singleton_self _)
    | array _ hgo _ _ _ => simpa using hgo ([], [s]) (List.mem_singleton_self _)
  | @list items hne hlength hitems ih =>
    have hfilled := (Data.Flattenable.list hne hlength hitems).ne_nil_of_perm hputs
    rw [Data.puts] at hputs
    split_ifs at hputs with hbrief
    · obtain rfl := List.perm_singleton.mp hputs
      rw [h.toData_of_append, Data.texts,
        Data.map_text_filterMap ((Bool.and_eq_true _ _).mp hbrief).2]
    · rw [Data.itemPuts_eq] at hputs
      have hchild : ∀ child ∈ Data.numbered items, child.2 ∈ items := fun child hmem =>
        List.mem_of_getElem? (Data.mem_numbered.mp hmem)
      exact h.toData_of_items hfilled hputs
        (fun child hmem => ((hitems _ (hchild child hmem)).flat_puts _).ne_nil)
        fun child hmem _ _ hslot hperm => ih _ (hchild child hmem) hslot hperm
  | @object members hne hsorted hnames hmembers ih =>
    have hfilled := (Data.Flattenable.object hne hsorted hnames hmembers).ne_nil_of_perm hputs
    rw [Data.puts, Data.memberPuts_eq] at hputs
    exact h.toData_of_members hfilled hsorted hputs
      (fun child hmem => ((hmembers child hmem).flat_puts _).ne_nil)
      fun child hmem _ _ hslot hperm => ih child hmem hslot hperm

end Holds

end Slot

/-! ### From the keys to placements -/

namespace Data

/-- Below a list or an object, every placement has a step. -/
theorem fst_ne_nil_of_mem_puts {data : Data} (h : ∀ s, data ≠ .text s) {brief : List Step → Bool}
    {put : Put} (hput : put ∈ data.puts brief) : put.1 ≠ [] := by
  have hgather : ∀ {groups : List (Step × List Put)}, put ∈ Put.gather groups → put.1 ≠ [] := by
    intro groups hmem
    obtain ⟨step, puts, rest, items, -, -, rfl⟩ := Put.mem_gather.mp hmem
    exact List.cons_ne_nil step rest
  cases data with
  | text s => exact absurd rfl (h s)
  | object members => exact hgather hput
  | list items =>
    rw [puts] at hput
    split_ifs at hput
    · rw [List.mem_singleton.mp hput]
      exact List.cons_ne_nil _ _
    · exact hgather hput
  | _ => cases hput

variable {data : Data} {brief : List Step → Bool}

/-- Each key of a flattened document reads as the steps of its placement. -/
theorem steps?_of_mem_puts (h : data.Flattenable) (htop : ∀ s, data ≠ .text s) {put : Put}
    (hput : put ∈ data.puts brief) : Path.steps? (Path.ofSteps put.1) = some put.1 :=
  Path.steps?_ofSteps ((h.flat_puts brief).spelled put hput) (fst_ne_nil_of_mem_puts htop hput)

/-- The entries of a flattened document are its placements, in the order of the keys. -/
theorem entries_flatten_perm (h : data.Flattenable) (htop : ∀ s, data ≠ .text s) :
    (data.flatten brief).entries ~
      (data.puts brief).map fun put => (Path.ofSteps put.1, put.2) := by
  have hflat := h.flat_puts brief
  have hpairs : data.flatten brief = .ofList
      (Values.mk ((data.puts brief).map fun put => (Path.ofSteps put.1, put.2))).toList := by
    rw [flatten, Values.toList, List.flatMap_map]
  rw [hpairs]
  refine Values.ofList_toList_perm ?_ (List.forall_mem_map.mpr hflat.filled)
  rw [Values.keys, List.map_map, List.Nodup, List.pairwise_map]
  refine hflat.pairwise.imp_of_mem fun {a b} ha hb hab he => hab.1 ?_
  have hsteps : some a.1 = some b.1 := by
    rw [← steps?_of_mem_puts h htop ha, ← steps?_of_mem_puts h htop hb]
    exact congrArg Path.steps? he
  exact Option.some.inj hsteps

theorem ofEntries_flatten_perm (h : data.Flattenable) (htop : ∀ s, data ≠ .text s) :
    Put.ofEntries (data.flatten brief).entries ~ data.puts brief := by
  have hread : Put.ofEntries ((data.puts brief).map fun put => (Path.ofSteps put.1, put.2)) =
      data.puts brief := by
    rw [Put.ofEntries, List.filterMap_map]
    refine (List.filterMap_congr fun put hput => ?_).trans List.filterMap_some
    rw [Function.comp_apply, steps?_of_mem_puts h htop hput, Option.map_some]
  exact hread ▸ (entries_flatten_perm h htop).filterMap _

/-- The keys of a flattened document can join each other. -/
theorem joinInTurn_flatten (h : data.Flattenable) (htop : ∀ s, data ≠ .text s) :
    Document.JoinInTurn ((data.flatten brief).entries.map Prod.fst) := by
  have hperm : (data.flatten brief).entries ~ _ := entries_flatten_perm h htop
  have hkey : ∀ key ∈ (data.flatten brief).entries.map Prod.fst,
      ∃ put ∈ data.puts brief, Path.ofSteps put.1 = key := by
    intro key hmem
    rw [(hperm.map Prod.fst).mem_iff, List.map_map] at hmem
    exact List.mem_map.mp hmem
  have hnodup : ((data.flatten brief).entries.map Prod.fst).Nodup :=
    Keyed.Sorted.nodup_keys (Values.sorted_ofList _)
  rw [Document.joinInTurn_iff hnodup]
  constructor
  · intro key hmem
    obtain ⟨put, hput, rfl⟩ := hkey key hmem
    exact ⟨put.1, steps?_of_mem_puts h htop hput, ((h.flat_puts brief).spelled put hput).fits⟩
  · rintro a ha b hb hne ⟨as, bs, has, hbs, hconflict⟩
    obtain ⟨p, hp, rfl⟩ := hkey a ha
    obtain ⟨q, hq, rfl⟩ := hkey b hb
    cases (steps?_of_mem_puts h htop hp).symm.trans has
    cases (steps?_of_mem_puts h htop hq).symm.trans hbs
    have : Std.Symm fun a b : Put => a.1 ≠ b.1 ∧ ¬ Step.Conflict a.1 b.1 :=
      ⟨fun a b hab => ⟨hab.1.symm, fun hc => hab.2 hc.symm⟩⟩
    have hpq : p ≠ q := fun he => hne (he ▸ rfl)
    exact ((h.flat_puts brief).pairwise.forall hp hq hpq).2 hconflict

end Data

namespace Document

/-- A document of texts, lists and objects comes back from its flat keys, whichever of its lists of
texts are written in short. -/
theorem ofValues_flatten {data : Data} (h : data.Flattenable) (htop : ∀ s, data ≠ .text s)
    (brief : List Step → Bool) : ofValues (data.flatten brief) = .ok data := by
  have hputs : Put.ofEntries (data.flatten brief).entries ~ data.puts brief :=
    Data.ofEntries_flatten_perm h htop
  obtain ⟨-, root, hroot, -⟩ | ⟨front, key, back, hkeys, -, hnot, -⟩ :=
    slots_cases (data.flatten brief).entries
  · obtain ⟨document, hdocument⟩ := ofValues_of_slots hroot
    obtain ⟨hnil, -⟩ | ⟨root, -, hholds, -, rfl⟩ := holds_of_ofValues hdocument
    · rw [hnil] at hputs
      exact absurd rfl (h.ne_nil_of_perm hputs)
    · rw [hdocument, hholds.toData_eq h hputs]
  · exact absurd (Data.joinInTurn_flatten h htop front key back hkeys) hnot

/-- A list of texts in short, and a list of an object, which has no short form. -/
theorem ofValues_flatten_short :
    (Data.object [("a", .list [.text "x", .text "y"]),
        ("b", .list [.object [("c", .text "z")]])]).Flattenable ∧
      (Data.object [("a", .list [.text "x", .text "y"]),
        ("b", .list [.object [("c", .text "z")]])]).flatten (fun _ => true) =
          ⟨[("a[]", ["x", "y"]), ("b[0][c]", ["z"])]⟩ ∧
      ofValues ⟨[("a[]", ["x", "y"]), ("b[0][c]", ["z"])]⟩ =
        .ok (.object [("a", .list [.text "x", .text "y"]),
          ("b", .list [.object [("c", .text "z")]])]) := by
  have hinner : (Data.object [("c", .text "z")]).Flattenable :=
    .object (List.cons_ne_nil _ _) (by decide +kernel)
      (List.forall_mem_singleton.mpr (by decide +kernel))
      (List.forall_mem_singleton.mpr (.text "z"))
  have hshort : (Data.list [.text "x", .text "y"]).Flattenable :=
    .list (List.cons_ne_nil _ _) (by decide +kernel)
      (List.forall_mem_cons.mpr ⟨.text "x", List.forall_mem_singleton.mpr (.text "y")⟩)
  have hlong : (Data.list [.object [("c", .text "z")]]).Flattenable :=
    .list (List.cons_ne_nil _ _) (by decide +kernel) (List.forall_mem_singleton.mpr hinner)
  have hdata : (Data.object [("a", .list [.text "x", .text "y"]),
      ("b", .list [.object [("c", .text "z")]])]).Flattenable :=
    .object (List.cons_ne_nil _ _) (by decide +kernel)
      (List.forall_mem_cons.mpr
        ⟨by decide +kernel, List.forall_mem_singleton.mpr (by decide +kernel)⟩)
      (List.forall_mem_cons.mpr ⟨hshort, List.forall_mem_singleton.mpr hlong⟩)
  have hflatten : (Data.object [("a", .list [.text "x", .text "y"]),
      ("b", .list [.object [("c", .text "z")]])]).flatten (fun _ => true) =
        ⟨[("a[]", ["x", "y"]), ("b[0][c]", ["z"])]⟩ := by
    decide +kernel
  have hback := ofValues_flatten hdata nofun fun _ => true
  exact ⟨hdata, hflatten, hflatten ▸ hback⟩

end Document

end Allowlist

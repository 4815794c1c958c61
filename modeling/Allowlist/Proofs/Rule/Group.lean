import Allowlist.Proofs.Rule.Denote
import Allowlist.Proofs.Rule.Entry
import Allowlist.Rule.Group

/-!
# Proofs.Rule.Group — when a group is built, and as what

Building a group reads its entries one after the other, each reference out of its slot
(`Slots.ReadAll`), and makes the shape that `groupShape?` gives for them.  The depth that is counted
beside a shape is the depth of the shape (`Slots.Exact`), however often entries merged or were
dropped.
-/

namespace Allowlist.Rule

/-! ### Reading references -/

namespace Slots

theorem take_eq_ok_iff {slots slots' : Slots} {index : Nat} {group : Parked} :
    slots.take index = .ok (group, slots') ↔
      slots[index]? = some (some group) ∧ slots' = slots.set index none := by
  unfold take
  split
  · next found h =>
    rw [h]
    constructor
    · intro he
      cases he
      exact ⟨rfl, rfl⟩
    · rintro ⟨he, rfl⟩
      cases he
      rfl
  · next hnone =>
    refine iff_of_false (by simp) fun h => hnone group h.1

/-- What an entry stands for, and the slots once its reference is read. -/
def read (slots : Slots) : Entry → Except Fault ((Option String × Parked) × Slots)
  | .key name => .ok ((some name, .key), slots)
  | .keyed name index => (slots.take index).map fun (child, slots) => ((some name, child), slots)
  | .group index => (slots.take index).map fun (child, slots) => ((none, child), slots)

/-- The entries read one after the other. -/
inductive ReadAll : Slots → List Entry → List (Option String × Parked) → Slots → Prop
  | nil {slots : Slots} : ReadAll slots [] [] slots
  | cons {slots next last : Slots} {entry : Entry} {entries : List Entry}
      {part : Option String × Parked} {parts : List (Option String × Parked)} :
      slots.read entry = .ok (part, next) → ReadAll next entries parts last →
      ReadAll slots (entry :: entries) (part :: parts) last

theorem length_take {slots slots' : Slots} {index : Nat} {group : Parked}
    (h : slots.take index = .ok (group, slots')) : slots'.length = slots.length := by
  rw [(take_eq_ok_iff.mp h).2, List.length_set]

/-- An entry reads a key, or the group that its slot holds. -/
theorem read_cases {slots slots' : Slots} {entry : Entry} {part : Option String × Parked}
    (h : slots.read entry = .ok (part, slots')) :
    (∃ name, entry = .key name ∧ part = (some name, .key) ∧ slots' = slots) ∨
      ∃ index, slots.take index = .ok (part.2, slots') ∧
        ((∃ name, entry = .keyed name index ∧ part.1 = some name) ∨
          (entry = .group index ∧ part.1 = none)) := by
  cases entry with
  | key name =>
    cases h
    exact .inl ⟨name, rfl, rfl, rfl⟩
  | keyed name index =>
    obtain ⟨⟨child, slots''⟩, htake, he⟩ := Outcome.map_eq_ok_iff.mp h
    cases he
    exact .inr ⟨index, htake, .inl ⟨name, rfl, rfl⟩⟩
  | group index =>
    obtain ⟨⟨child, slots''⟩, htake, he⟩ := Outcome.map_eq_ok_iff.mp h
    cases he
    exact .inr ⟨index, htake, .inr ⟨rfl, rfl⟩⟩

/-- No slot is added, and what a slot still holds it held before. -/
theorem take_mono {slots slots' : Slots} {index : Nat} {group : Parked}
    (h : slots.take index = .ok (group, slots')) {i : Nat} {p : Parked}
    (hp : slots'[i]? = some (some p)) : slots[i]? = some (some p) := by
  obtain ⟨-, rfl⟩ := take_eq_ok_iff.mp h
  rw [List.getElem?_set] at hp
  split_ifs at hp with h1 h2
  · simp at hp
  · exact hp

theorem read_mono {slots slots' : Slots} {entry : Entry} {part : Option String × Parked}
    (h : slots.read entry = .ok (part, slots')) {i : Nat} {p : Parked}
    (hp : slots'[i]? = some (some p)) : slots[i]? = some (some p) := by
  obtain ⟨-, -, -, rfl⟩ | ⟨index, htake, -⟩ := read_cases h
  · exact hp
  · exact take_mono htake hp

theorem ReadAll.mono {slots slots' : Slots} {entries : List Entry}
    {parts : List (Option String × Parked)} (h : ReadAll slots entries parts slots') {i : Nat}
    {p : Parked} (hp : slots'[i]? = some (some p)) : slots[i]? = some (some p) := by
  induction h with
  | nil => exact hp
  | cons hread _ ih => exact read_mono hread (ih hp)

theorem ReadAll.length_eq {slots slots' : Slots} {entries : List Entry}
    {parts : List (Option String × Parked)} (h : ReadAll slots entries parts slots') :
    slots'.length = slots.length := by
  induction h with
  | nil => rfl
  | cons hread _ ih =>
    obtain ⟨-, -, -, rfl⟩ | ⟨index, htake, -⟩ := read_cases hread
    · exact ih
    · rw [ih, length_take htake]

/-- A parked group stands behind the slots that were there. -/
theorem getElem?_park {slots : Slots} {parked p : Parked} {index : Nat}
    (h : (slots ++ [some parked])[index]? = some (some p)) :
    slots[index]? = some (some p) ∨ index = slots.length ∧ p = parked := by
  rw [List.getElem?_append] at h
  split_ifs at h with hlt
  · exact .inl h
  · obtain ⟨hi, rfl⟩ : index - slots.length = 0 ∧ parked = p := by
      simpa [List.getElem?_singleton] using h
    exact .inr ⟨by omega, rfl⟩

end Slots

/-! ### Counted depth -/

/-- The depth that is kept with a shape is its depth, and the shape is sorted. -/
structure Parked.Exact (parked : Parked) : Prop where
  depth_eq : parked.depth = parked.shape.depth
  sorted : parked.shape.Sorted

/-- Every parked group is exact. -/
def Slots.Exact (slots : Slots) : Prop :=
  ∀ (i : Nat) (p : Parked), slots[i]? = some (some p) → p.Exact

theorem Parked.exact_key : Exact .key := ⟨rfl, trivial⟩

theorem Slots.Exact.read {slots slots' : Slots} {entry : Entry} {part : Option String × Parked}
    (hs : slots.Exact) (h : slots.read entry = .ok (part, slots')) :
    part.2.Exact ∧ slots'.Exact := by
  refine ⟨?_, fun i p hp => hs i p (read_mono h hp)⟩
  obtain ⟨name, -, rfl, -⟩ | ⟨index, htake, -⟩ := read_cases h
  · exact Parked.exact_key
  · exact hs index _ (take_eq_ok_iff.mp htake).1

theorem Slots.Exact.readAll {slots slots' : Slots} {entries : List Entry}
    {parts : List (Option String × Parked)} (hs : slots.Exact)
    (h : slots.ReadAll entries parts slots') : (∀ part ∈ parts, part.2.Exact) ∧ slots'.Exact := by
  induction h with
  | nil => exact ⟨nofun, hs⟩
  | cons hread _ ih =>
    obtain ⟨hpart, hnext⟩ := hs.read hread
    obtain ⟨hparts, hlast⟩ := ih hnext
    exact ⟨List.forall_mem_cons.mpr ⟨hpart, hparts⟩, hlast⟩

namespace Group

/-- The depth counted so far is that of the shape that the parts would make. -/
structure Draft.Exact {α : Type} (draft : Draft α) (shape : List α → Shape) : Prop where
  slots : draft.slots.Exact
  depth_eq : draft.depth + 1 = (shape draft.parts).depth
  sorted : (shape draft.parts).Sorted

/-- The shapes of the parts that entries read. -/
def shapesOf (parts : List (Option String × Parked)) : List (Option String × Shape) :=
  parts.map fun part => (part.1, part.2.shape)

theorem close_eq_ok_iff {shape : Shape} {depth : Nat} {slots slots' : Slots} {parked : Parked} :
    close shape depth slots = .ok (parked, slots') ↔
      depth ≤ maxDepth ∧ parked = ⟨shape, depth⟩ ∧ slots' = slots := by
  unfold close
  by_cases h : depth > maxDepth
  · simp [h, Nat.not_le.mpr h]
  · simp [h, Nat.not_lt.mp h, eq_comm]

/-! ### Arrays -/

theorem addArrayEntry_eq_ok_iff {draft draft' : Draft Shape} {entry : Entry} :
    addArrayEntry draft entry = .ok draft' ↔
      ∃ part, draft.slots.read entry = .ok (part, draft'.slots) ∧
        draft'.parts = Distinct.add draft.parts (elementOf (part.1, part.2.shape)) ∧
        draft'.depth = max draft.depth (part.1.elim part.2.depth fun _ => part.2.depth + 1) := by
  unfold addArrayEntry
  obtain ⟨slots', parts', depth'⟩ := draft'
  cases entry with
  | key name =>
    simp only [Outcome.bind_eq_ok_iff, Slots.read, pure, Except.pure, Except.ok.injEq,
      Draft.mk.injEq, Prod.mk.injEq]
    constructor
    · rintro ⟨_, rfl, rfl, rfl, rfl⟩
      exact ⟨_, ⟨rfl, rfl⟩, rfl, rfl⟩
    · rintro ⟨_, ⟨rfl, rfl⟩, rfl, rfl⟩
      exact ⟨_, rfl, rfl, rfl, rfl⟩
  | keyed name index =>
    simp only [Outcome.bind_eq_ok_iff, Slots.read, Outcome.map_eq_ok_iff, pure, Except.pure,
      Except.ok.injEq, Draft.mk.injEq, Prod.mk.injEq]
    constructor
    · rintro ⟨⟨child, slots⟩, htake, _, rfl, rfl, rfl, rfl⟩
      exact ⟨_, ⟨_, htake, rfl, rfl⟩, rfl, rfl⟩
    · rintro ⟨_, ⟨⟨child, slots⟩, htake, rfl, rfl⟩, rfl, rfl⟩
      exact ⟨⟨child, slots⟩, htake, _, rfl, rfl, rfl, rfl⟩
  | group index =>
    simp only [Outcome.bind_eq_ok_iff, Slots.read, Outcome.map_eq_ok_iff, pure, Except.pure,
      Except.ok.injEq, Draft.mk.injEq, Prod.mk.injEq]
    constructor
    · rintro ⟨⟨child, slots⟩, htake, rfl, rfl, rfl⟩
      exact ⟨_, ⟨_, htake, rfl, rfl⟩, rfl, rfl⟩
    · rintro ⟨_, ⟨⟨child, slots⟩, htake, rfl, rfl⟩, rfl, rfl⟩
      exact ⟨⟨child, slots⟩, htake, rfl, rfl, rfl⟩

theorem addArrayEntry_exact {draft draft' : Draft Shape} {entry : Entry}
    (hd : draft.Exact .array) (h : addArrayEntry draft entry = .ok draft') :
    draft'.Exact .array := by
  obtain ⟨part, hread, hparts, hdepth⟩ := addArrayEntry_eq_ok_iff.mp h
  obtain ⟨hchild, hslots⟩ := hd.slots.read hread
  have hsorted := Shape.sorted_array.mp hd.sorted
  refine ⟨hslots, ?_, Shape.sorted_array.mpr fun e he => ?_⟩
  · have hadd : draft'.parts = Distinct.extend draft.parts [elementOf (part.1, part.2.shape)] :=
      hparts
    have hold := hd.depth_eq
    rw [hadd, Shape.depth, Shape.elementsDepth_extend, hdepth, hchild.depth_eq]
    simp only [Shape.depth, Shape.elementsDepth, depth_elementOf] at hold ⊢
    omega
  · rw [hparts, Distinct.mem_add] at he
    exact he.elim (hsorted e) fun he => he ▸ sorted_elementOf hchild.sorted

theorem addArrayEntries_exact {entries : List Entry} {slots : Slots} {draft : Draft Shape}
    (hs : slots.Exact) (h : entries.foldlM addArrayEntry ⟨slots, [], 0⟩ = .ok draft) :
    draft.Exact .array := by
  refine Outcome.foldlM_induction (P := (Draft.Exact · .array)) ?_
    (fun _ _ _ _ => addArrayEntry_exact) h
  exact ⟨hs, rfl, by simp⟩

theorem addArrayEntries_iff {entries : List Entry} {slots slots' : Slots} {es es' : List Shape}
    (depth : Nat) :
    (∃ depth', entries.foldlM addArrayEntry ⟨slots, es, depth⟩ = .ok ⟨slots', es', depth'⟩) ↔
      ∃ parts, slots.ReadAll entries parts slots' ∧
        es' = Distinct.extend es ((shapesOf parts).map elementOf) := by
  induction entries generalizing slots es depth with
  | nil =>
    constructor
    · rintro ⟨depth', h⟩
      cases h
      exact ⟨[], .nil, rfl⟩
    · rintro ⟨parts, hread, rfl⟩
      cases hread
      exact ⟨depth, rfl⟩
  | cons entry entries ih =>
    simp only [Outcome.foldlM_cons_eq_ok_iff, addArrayEntry_eq_ok_iff]
    constructor
    · rintro ⟨depth', ⟨next, es'', depth''⟩, ⟨part, hread, hadd, -⟩, hrest⟩
      obtain ⟨parts, hparts, hes⟩ := (ih _).mp ⟨depth', hrest⟩
      refine ⟨part :: parts, .cons hread hparts, ?_⟩
      obtain rfl : es'' = _ := hadd
      exact hes
    · rintro ⟨parts, hread, rfl⟩
      cases hread with
      | @cons _ next _ _ _ part parts hread hparts =>
        obtain ⟨depth', h⟩ := (ih _).mpr ⟨parts, hparts, rfl⟩
        exact ⟨depth', ⟨next, _, _⟩, ⟨part, hread, rfl, rfl⟩, h⟩

variable [Shape.MemberOrder]

/-! ### Objects -/

theorem addObjectEntry_eq_ok_iff {draft draft' : Draft (String × Shape)} {entry : Entry} :
    addObjectEntry draft entry = .ok draft' ↔
      ∃ name child, draft.slots.read entry = .ok ((some name, child), draft'.slots) ∧
        Shape.addMember [] draft.parts name child.shape = .ok draft'.parts ∧
        draft'.depth = max draft.depth child.depth := by
  unfold addObjectEntry
  obtain ⟨slots', parts', depth'⟩ := draft'
  cases entry with
  | key name =>
    simp only [Outcome.bind_eq_ok_iff, Slots.read, pure, Except.pure, Except.ok.injEq,
      Draft.mk.injEq, Prod.mk.injEq, Option.some.injEq, Outcome.mapError_eq_ok_iff]
    constructor
    · rintro ⟨_, rfl, ms, hms, rfl, rfl, rfl⟩
      exact ⟨name, .key, ⟨⟨rfl, rfl⟩, rfl⟩, hms, rfl⟩
    · rintro ⟨_, _, ⟨⟨rfl, rfl⟩, rfl⟩, hms, rfl⟩
      exact ⟨_, rfl, parts', hms, rfl, rfl, rfl⟩
  | keyed name index =>
    simp only [Outcome.bind_eq_ok_iff, Slots.read, Outcome.map_eq_ok_iff, pure, Except.pure,
      Except.ok.injEq, Draft.mk.injEq, Prod.mk.injEq, Option.some.injEq,
      Outcome.mapError_eq_ok_iff]
    constructor
    · rintro ⟨⟨child, slots⟩, htake, _, rfl, ms, hms, rfl, rfl, rfl⟩
      exact ⟨name, child, ⟨_, htake, ⟨rfl, rfl⟩, rfl⟩, hms, rfl⟩
    · rintro ⟨_, _, ⟨⟨child, slots⟩, htake, ⟨rfl, rfl⟩, rfl⟩, hms, rfl⟩
      exact ⟨⟨child, slots⟩, htake, _, rfl, parts', hms, rfl, rfl, rfl⟩
  | group index =>
    simp [Outcome.bind_eq_ok_iff, Slots.read, Outcome.map_eq_ok_iff]

theorem addObjectEntry_exact {draft draft' : Draft (String × Shape)} {entry : Entry}
    (hd : draft.Exact .object) (h : addObjectEntry draft entry = .ok draft') :
    draft'.Exact .object := by
  obtain ⟨name, child, hread, hadd, hdepth⟩ := addObjectEntry_eq_ok_iff.mp h
  obtain ⟨hchild, hslots⟩ := hd.slots.read hread
  have hdeclare : declare? draft.parts (some name, child.shape) = some draft'.parts :=
    Outcome.toOption_eq_some_iff.mpr hadd
  refine ⟨hslots, ?_, sorted_declare? hd.sorted hchild.sorted hdeclare⟩
  rw [depth_declare? hd.sorted hchild.sorted hdeclare, ← hd.depth_eq, hdepth,
    ← hchild.depth_eq]
  exact (Nat.add_max_add_right _ _ 1).symm

theorem addObjectEntries_exact {entries : List Entry} {slots : Slots}
    {draft : Draft (String × Shape)} (hs : slots.Exact)
    (h : entries.foldlM addObjectEntry ⟨slots, [], 0⟩ = .ok draft) : draft.Exact .object := by
  refine Outcome.foldlM_induction (P := (Draft.Exact · .object)) ?_
    (fun _ _ _ _ => addObjectEntry_exact) h
  exact ⟨hs, rfl, by simp⟩

theorem addObjectEntries_iff {entries : List Entry} {slots slots' : Slots}
    {ms ms' : List (String × Shape)} (depth : Nat) :
    (∃ depth', entries.foldlM addObjectEntry ⟨slots, ms, depth⟩ = .ok ⟨slots', ms', depth'⟩) ↔
      ∃ parts, slots.ReadAll entries parts slots' ∧
        (shapesOf parts).foldlM declare? ms = some ms' := by
  induction entries generalizing slots ms depth with
  | nil =>
    constructor
    · rintro ⟨depth', h⟩
      cases h
      exact ⟨[], .nil, rfl⟩
    · rintro ⟨parts, hread, hms⟩
      cases hread
      cases hms
      exact ⟨depth, rfl⟩
  | cons entry entries ih =>
    simp only [Outcome.foldlM_cons_eq_ok_iff, addObjectEntry_eq_ok_iff]
    constructor
    · rintro ⟨depth', ⟨next, ms'', depth''⟩, ⟨name, child, hread, hadd, -⟩, hrest⟩
      obtain ⟨parts, hparts, hms⟩ := (ih _).mp ⟨depth', hrest⟩
      refine ⟨(some name, child) :: parts, .cons hread hparts, ?_⟩
      have hdeclare : declare? ms (some name, child.shape) = some ms'' := by
        rw [declare?, Outcome.toOption_eq_some_iff]
        exact hadd
      rw [shapesOf, List.map_cons, List.foldlM_cons, hdeclare]
      exact hms
    · rintro ⟨parts, hread, hms⟩
      cases hread with
      | @cons _ next _ _ _ part parts hread hparts =>
        obtain ⟨name?, child⟩ := part
        rw [shapesOf, List.map_cons, List.foldlM_cons, Option.bind_eq_bind,
          Option.bind_eq_some_iff] at hms
        obtain ⟨ms'', hdeclare, hms⟩ := hms
        cases name? with
        | none => cases hdeclare
        | some name =>
          rw [declare?, Outcome.toOption_eq_some_iff] at hdeclare
          obtain ⟨depth', h⟩ := (ih (max depth child.depth)).mpr ⟨parts, hparts, hms⟩
          exact ⟨depth', ⟨next, ms'', _⟩, ⟨name, child, hread, hdeclare, rfl⟩, h⟩

/-! ### Groups -/

/-- A group whose entries can be read and make a shape is closed with that shape and its depth. -/
theorem build_eq_close {kind : GroupKind} {body : List Symbol} {slots slots' : Slots}
    {entries : List Entry} {parts : List (Option String × Parked)} {shape : Shape}
    (hs : slots.Exact) (hbody : Entry.ofBody body = .ok entries)
    (hread : slots.ReadAll entries parts slots')
    (hshape : groupShape? kind (shapesOf parts) = some shape) :
    build kind body slots = close shape shape.depth slots' := by
  unfold build
  rw [hbody]
  cases kind with
  | object =>
    obtain ⟨ms, hms, rfl⟩ := Option.map_eq_some_iff.mp hshape
    obtain ⟨depth, hfold⟩ := (addObjectEntries_iff 0).mpr ⟨parts, hread, hms⟩
    rw [← (addObjectEntries_exact hs hfold).depth_eq]
    exact congrArg (· >>= fun draft => close (.object draft.parts) (draft.depth + 1) draft.slots)
      hfold
  | array =>
    obtain rfl := Option.some.inj hshape
    obtain ⟨depth, hfold⟩ := (addArrayEntries_iff 0).mpr
      ⟨parts, hread, (rfl : _ = Distinct.extend [] _)⟩
    have hdepth : depth + 1 = (Shape.array (Distinct.ofList _)).depth :=
      (addArrayEntries_exact hs hfold).depth_eq
    rw [← hdepth]
    exact congrArg (· >>= fun draft => close (.array draft.parts) (draft.depth + 1) draft.slots)
      hfold

/-- A group is built when its entries can be read and make a shape that is not too deep. -/
theorem build_eq_ok_iff {kind : GroupKind} {body : List Symbol} {slots slots' : Slots}
    {parked : Parked} (hs : slots.Exact) :
    build kind body slots = .ok (parked, slots') ↔
      ∃ entries parts, Entry.ofBody body = .ok entries ∧ slots.ReadAll entries parts slots' ∧
        groupShape? kind (shapesOf parts) = some parked.shape ∧
        parked.depth = parked.shape.depth ∧ parked.depth ≤ maxDepth := by
  constructor
  · intro h
    unfold build at h
    obtain ⟨entries, hbody, h⟩ := Outcome.bind_eq_ok_iff.mp h
    cases kind with
    | object =>
      obtain ⟨⟨slots'', ms, depth⟩, hfold, hclose⟩ := Outcome.bind_eq_ok_iff.mp h
      obtain ⟨hle, rfl, rfl⟩ := close_eq_ok_iff.mp hclose
      obtain ⟨parts, hread, hms⟩ := (addObjectEntries_iff 0).mp ⟨depth, hfold⟩
      have hexact := addObjectEntries_exact hs hfold
      exact ⟨entries, parts, hbody, hread, by simp [groupShape?, hms], hexact.depth_eq, hle⟩
    | array =>
      obtain ⟨⟨slots'', es, depth⟩, hfold, hclose⟩ := Outcome.bind_eq_ok_iff.mp h
      obtain ⟨hle, rfl, rfl⟩ := close_eq_ok_iff.mp hclose
      obtain ⟨parts, hread, hes⟩ := (addArrayEntries_iff 0).mp ⟨depth, hfold⟩
      have hexact := addArrayEntries_exact hs hfold
      exact ⟨entries, parts, hbody, hread, by simp [groupShape?, hes, Distinct.ofList],
        hexact.depth_eq, hle⟩
  · rintro ⟨entries, parts, hbody, hread, hshape, hdepth, hle⟩
    obtain ⟨shape, depth⟩ := parked
    obtain rfl : depth = shape.depth := hdepth
    rw [build_eq_close hs hbody hread hshape, close_eq_ok_iff]
    exact ⟨hle, rfl, rfl⟩

/-- Blanks around the body of a group do not matter. -/
theorem build_trim (kind : GroupKind) (body : List Symbol) (slots : Slots) :
    build kind (Symbol.trim body) slots = build kind body slots := by
  rw [build, build, ofBody_trim]

/-- What is built is exact, and so are the slots that are left. -/
theorem build_exact {kind : GroupKind} {body : List Symbol} {slots slots' : Slots}
    {parked : Parked} (hs : slots.Exact) (h : build kind body slots = .ok (parked, slots')) :
    parked.Exact ∧ slots'.Exact := by
  obtain ⟨entries, parts, -, hread, hshape, hdepth, -⟩ := (build_eq_ok_iff hs).mp h
  obtain ⟨hparts, hslots⟩ := hs.readAll hread
  refine ⟨⟨hdepth, sorted_groupShape? (fun e he => ?_) hshape⟩, hslots⟩
  obtain ⟨part, hmem, rfl⟩ := List.mem_map.mp he
  exact (hparts part hmem).sorted

end Group

end Allowlist.Rule

import Allowlist.Proofs.Rule.Reduction

/-!
# Proofs.Rule.References — one reference for each parked group

Every group that is parked is referred to once, and every reference finds its group
(`Reduction.Linear`).  A step takes the references of a body out of the text and their groups out of
the slots, and adds one of each (`Next.linear`).  Where references are linear, reading them is
looking their slots up (`Slots.exists_readAll_iff`), and a group is built from what was read without
another look at the slots (`Group.build_eq_ofParts`): no reference is ever found dangling.
-/

namespace Allowlist.Rule

open Allowlist.Rule.Symbol

/-! ### References of texts and entries -/

/-- The group that the symbol refers to. -/
def Symbol.target? : Symbol → Option Nat
  | .char _ => none
  | .group index => some index

/-- The references of a text, from left to right. -/
def Symbol.references (text : List Symbol) : List Nat :=
  text.filterMap target?

/-- The group that the entry refers to. -/
def Entry.target? : Entry → Option Nat
  | .key _ => none
  | .keyed _ index => some index
  | .group index => some index

@[simp] theorem references_nil : references [] = [] := rfl

@[simp] theorem references_append (text more : List Symbol) :
    references (text ++ more) = references text ++ references more :=
  List.filterMap_append

@[simp] theorem references_char (c : Char) (text : List Symbol) :
    references (.char c :: text) = references text := rfl

@[simp] theorem references_group (index : Nat) (text : List Symbol) :
    references (.group index :: text) = index :: references text := rfl

@[simp] theorem references_ofChars (chars : List Char) : references (ofChars chars) = [] := by
  induction chars with
  | nil => rfl
  | cons c chars ih => exact ih

theorem references_trim (text : List Symbol) : references (trim text) = references text := by
  obtain ⟨p, q, -, -, htext⟩ := exists_pad text
  conv_rhs => rw [htext]
  simp

theorem Entry.Spells.references_eq {entry : Entry} {text : List Symbol} (h : entry.Spells text) :
    references text = entry.target?.toList := by
  cases h <;> simp [Entry.target?]

/-- The references of a body are those of its entries. -/
theorem Entry.SpellAll.references_eq {entries : List Entry} {text : List Symbol}
    (h : SpellAll entries text) : references text = entries.filterMap Entry.target? := by
  induction h with
  | @one entry text hfirst =>
    rw [hfirst.references_eq]
    cases hentry : entry.target? <;> simp [hentry]
  | @cons entry text entries rest hfirst _ ih =>
    rw [references_append, references_char, hfirst.references_eq, ih]
    cases hentry : entry.target? <;> simp [hentry]

theorem references_of_ofBody {body : List Symbol} {entries : List Entry}
    (h : Entry.ofBody body = .ok entries) :
    references body = entries.filterMap Entry.target? := by
  rcases ofBody_eq_ok_iff.mp h with ⟨rfl, hblank⟩ | hspell
  · obtain ⟨p, -, rfl⟩ := trim_eq_nil_iff.mp hblank
    rw [references_ofChars]
    rfl
  · exact hspell.references_eq

/-- A body is refused for an entry that it holds. -/
theorem exists_entry_of_ofBody_error {body : List Symbol} {fault : Fault}
    (h : Entry.ofBody body = .error fault) : ∃ entry, fault = .invalidEntry entry := by
  unfold Entry.ofBody at h
  split_ifs at h
  obtain ⟨text, -, hfail⟩ := Outcome.exists_mapM_error h
  unfold Entry.ofText at hfail
  dsimp only at hfail
  split at hfail <;> cases hfail
  exact ⟨_, rfl⟩

/-! ### Reading linear references -/

namespace Slots

/-- The slot holds a group. -/
def Holds (slots : Slots) (index : Nat) : Prop := ∃ parked, slots[index]? = some (some parked)

/-- What the entry stands for, with the group looked up where it is parked. -/
inductive Stands (slots : Slots) : Entry → Option String × Parked → Prop
  | key {name : String} : Stands slots (.key name) (some name, .key)
  | keyed {name : String} {index : Nat} {parked : Parked} :
      slots[index]? = some (some parked) → Stands slots (.keyed name index) (some name, parked)
  | group {index : Nat} {parked : Parked} :
      slots[index]? = some (some parked) → Stands slots (.group index) (none, parked)

theorem holds_take_iff {slots slots' : Slots} {index : Nat} {parked : Parked}
    (h : slots.take index = .ok (parked, slots')) (i : Nat) (p : Parked) :
    slots'[i]? = some (some p) ↔ slots[i]? = some (some p) ∧ i ≠ index := by
  obtain ⟨-, rfl⟩ := take_eq_ok_iff.mp h
  rw [List.getElem?_set]
  by_cases hi : index = i
  · subst hi
    refine iff_of_false ?_ fun h => h.2 rfl
    rw [if_pos rfl]
    split_ifs <;> simp
  · rw [if_neg hi]
    exact (and_iff_left (Ne.symm hi)).symm

/-- Reading an entry empties the slot that it refers to and no other. -/
theorem holds_read_iff {slots slots' : Slots} {entry : Entry} {part : Option String × Parked}
    (h : slots.read entry = .ok (part, slots')) (i : Nat) (p : Parked) :
    slots'[i]? = some (some p) ↔ slots[i]? = some (some p) ∧ entry.target? ≠ some i := by
  obtain ⟨name, rfl, -, rfl⟩ | ⟨index, htake, hentry⟩ := read_cases h
  · simp [Entry.target?]
  · have htarget : entry.target? = some index := by
      obtain ⟨name, rfl, -⟩ | ⟨rfl, -⟩ := hentry <;> rfl
    rw [holds_take_iff htake, htarget, ne_eq, ne_eq, Option.some.injEq, eq_comm (a := i)]

/-- Reading entries empties the slots that they refer to and no others. -/
theorem ReadAll.holds_iff {slots slots' : Slots} {entries : List Entry}
    {parts : List (Option String × Parked)} (h : slots.ReadAll entries parts slots') (i : Nat)
    (p : Parked) :
    slots'[i]? = some (some p) ↔
      slots[i]? = some (some p) ∧ i ∉ entries.filterMap Entry.target? := by
  induction h with
  | nil => simp
  | @cons slots next last entry entries part parts hread _ ih =>
    rw [ih, holds_read_iff hread, List.filterMap_cons]
    cases entry.target? with
    | none => simp
    | some index =>
      rw [List.mem_cons, not_or, and_assoc, ne_eq, Option.some.injEq, eq_comm (a := i)]

/-- An entry that stands for something can be read. -/
theorem Stands.exists_read {slots : Slots} {entry : Entry} {part : Option String × Parked}
    (h : slots.Stands entry part) : ∃ slots', slots.read entry = .ok (part, slots') := by
  cases h with
  | key => exact ⟨slots, rfl⟩
  | keyed hslot =>
    rw [read, take_eq_ok_iff.mpr ⟨hslot, rfl⟩]
    exact ⟨_, rfl⟩
  | group hslot =>
    rw [read, take_eq_ok_iff.mpr ⟨hslot, rfl⟩]
    exact ⟨_, rfl⟩

theorem stands_of_read {slots slots' : Slots} {entry : Entry} {part : Option String × Parked}
    (h : slots.read entry = .ok (part, slots')) : slots.Stands entry part := by
  obtain ⟨name, rfl, rfl, -⟩ | ⟨index, htake, hentry⟩ := read_cases h
  · exact .key
  · obtain ⟨name?, parked⟩ := part
    have hslot := (take_eq_ok_iff.mp htake).1
    obtain ⟨name, rfl, rfl⟩ | ⟨rfl, rfl⟩ := hentry
    · exact .keyed hslot
    · exact .group hslot

/-- Where the slots agree an entry stands for the same. -/
theorem Stands.congr {slots slots' : Slots} {entry : Entry} {part : Option String × Parked}
    (h : slots.Stands entry part)
    (hslots : ∀ i p, entry.target? = some i → slots[i]? = some (some p) →
      slots'[i]? = some (some p)) : slots'.Stands entry part := by
  cases h with
  | key => exact .key
  | keyed hslot => exact .keyed (hslots _ _ rfl hslot)
  | group hslot => exact .group (hslots _ _ rfl hslot)

/-- An entry refers to nothing, or to a slot that holds a group. -/
theorem exists_stands_iff {slots : Slots} {entry : Entry} :
    (∃ part, slots.Stands entry part) ↔ ∀ i, entry.target? = some i → slots.Holds i := by
  constructor
  · rintro ⟨part, h⟩ i hi
    cases h with
    | key => cases hi
    | keyed hslot =>
      cases hi
      exact ⟨_, hslot⟩
    | group hslot =>
      cases hi
      exact ⟨_, hslot⟩
  · intro h
    cases entry with
    | key name => exact ⟨_, .key⟩
    | keyed name index =>
      obtain ⟨parked, hslot⟩ := h index rfl
      exact ⟨_, .keyed hslot⟩
    | group index =>
      obtain ⟨parked, hslot⟩ := h index rfl
      exact ⟨_, .group hslot⟩

theorem ReadAll.stands {slots slots' : Slots} {entries : List Entry}
    {parts : List (Option String × Parked)} (h : slots.ReadAll entries parts slots') :
    List.Forall₂ slots.Stands entries parts := by
  induction h with
  | nil => exact .nil
  | cons hread _ ih =>
    refine .cons (stands_of_read hread) (ih.imp fun e p h => ?_)
    exact h.congr fun i q _ hq => ((holds_read_iff hread i q).mp hq).1

/-- Entries that stand for something can be read one after the other, if no two of them refer to
one slot: those that are still to be read have not been emptied. -/
theorem exists_readAll {base slots : Slots} {entries : List Entry}
    {parts : List (Option String × Parked)} (hstands : List.Forall₂ base.Stands entries parts)
    (hnodup : (entries.filterMap Entry.target?).Nodup)
    (hkept : ∀ i ∈ entries.filterMap Entry.target?, ∀ p : Parked,
      base[i]? = some (some p) → slots[i]? = some (some p)) :
    ∃ slots', slots.ReadAll entries parts slots' := by
  induction hstands generalizing slots with
  | nil => exact ⟨slots, .nil⟩
  | @cons entry part entries parts hfirst _ ih =>
    have hmem : ∀ i, entry.target? = some i → i ∈ (entry :: entries).filterMap Entry.target? :=
      fun i hi => List.mem_filterMap.mpr ⟨entry, List.mem_cons_self, hi⟩
    obtain ⟨next, hread⟩ := (hfirst.congr fun i p hi => hkept i (hmem i hi) p).exists_read
    have hmore : ∀ i ∈ entries.filterMap Entry.target?,
        i ∈ (entry :: entries).filterMap Entry.target? ∧ entry.target? ≠ some i := by
      intro i hi
      rw [List.filterMap_cons] at hnodup ⊢
      cases htarget : entry.target? with
      | none => exact ⟨hi, nofun⟩
      | some index =>
        rw [htarget] at hnodup
        refine ⟨List.mem_cons_of_mem _ hi, fun he => ?_⟩
        cases he
        exact (List.nodup_cons.mp hnodup).1 hi
    have hrest : (entries.filterMap Entry.target?).Nodup :=
      hnodup.sublist ((List.sublist_cons_self entry entries).filterMap _)
    obtain ⟨last, hlast⟩ := ih hrest fun i hi p hp =>
      (holds_read_iff hread i p).mpr ⟨hkept i (hmore i hi).1 p hp, (hmore i hi).2⟩
    exact ⟨last, .cons hread hlast⟩

/-- Every reference finds a group, every group is referred to, and no reference stands twice. -/
structure Linear (slots : Slots) (refs : List Nat) : Prop where
  nodup : refs.Nodup
  holds_iff : ∀ i, slots.Holds i ↔ i ∈ refs

theorem linear_nil : Linear [] [] := ⟨List.nodup_nil, fun i => by simp [Holds]⟩

section Linear

variable {slots slots' : Slots} {entries : List Entry} {parts : List (Option String × Parked)}
  {front back : List Nat}

/-- Entries with linear references can be read. -/
theorem Linear.exists_readAll
    (h : slots.Linear (front ++ entries.filterMap Entry.target? ++ back)) :
    ∃ parts slots', slots.ReadAll entries parts slots' := by
  have hall : ∀ entry ∈ entries, ∃ part, slots.Stands entry part := by
    intro entry hentry
    refine exists_stands_iff.mpr fun i hi => (h.holds_iff i).mpr ?_
    have hmem : i ∈ entries.filterMap Entry.target? := List.mem_filterMap.mpr ⟨entry, hentry, hi⟩
    exact List.mem_append_left _ (List.mem_append_right _ hmem)
  obtain ⟨parts, hparts⟩ : ∃ parts, List.Forall₂ slots.Stands entries parts := by
    clear h
    induction entries with
    | nil => exact ⟨[], .nil⟩
    | cons entry entries ih =>
      obtain ⟨part, hpart⟩ := hall entry List.mem_cons_self
      obtain ⟨parts, hparts⟩ := ih fun e he => hall e (List.mem_cons_of_mem _ he)
      exact ⟨part :: parts, .cons hpart hparts⟩
  have hnodup := (List.nodup_append.mp (List.nodup_append.mp h.nodup).1).2.1
  exact ⟨parts, Slots.exists_readAll hparts hnodup fun i _ p hp => hp⟩

/-- Reading takes the references away together with their groups. -/
theorem Linear.readAll (h : slots.Linear (front ++ entries.filterMap Entry.target? ++ back))
    (hread : slots.ReadAll entries parts slots') : slots'.Linear (front ++ back) := by
  have hnodup := h.nodup
  rw [List.append_assoc, List.perm_append_comm_assoc _ _ _ |>.nodup_iff] at hnodup
  obtain ⟨-, hrest, hdisjoint⟩ := List.nodup_append.mp hnodup
  refine ⟨hrest, fun i => ?_⟩
  have hholds : slots'.Holds i ↔ slots.Holds i ∧ i ∉ entries.filterMap Entry.target? := by
    simp only [Holds, hread.holds_iff, exists_and_right]
  rw [hholds, h.holds_iff]
  constructor
  · rintro ⟨hmem, hnot⟩
    simp only [List.mem_append] at hmem ⊢
    rcases hmem with (hmem | hmem) | hmem
    · exact .inl hmem
    · exact absurd hmem hnot
    · exact .inr hmem
  · intro hmem
    refine ⟨?_, fun htarget => hdisjoint i htarget i hmem rfl⟩
    simp only [List.mem_append] at hmem ⊢
    exact hmem.imp_left .inl

/-- A group that is parked gets a reference of its own. -/
theorem Linear.park (h : slots.Linear (front ++ back)) (parked : Parked) :
    Linear (slots ++ [some parked]) (front ++ slots.length :: back) := by
  have hfresh : slots.length ∉ front ++ back := by
    intro hmem
    obtain ⟨p, hp⟩ := (h.holds_iff _).mpr hmem
    simp at hp
  refine ⟨?_, fun i => ?_⟩
  · rw [List.perm_middle.nodup_iff, List.nodup_cons]
    exact ⟨hfresh, h.nodup⟩
  · rw [List.perm_middle.mem_iff, List.mem_cons, ← h.holds_iff]
    constructor
    · rintro ⟨p, hp⟩
      exact (getElem?_park hp).elim (fun hp => .inr ⟨p, hp⟩) fun hi => .inl hi.1
    · rintro (rfl | ⟨p, hp⟩)
      · exact ⟨parked, by simp⟩
      · refine ⟨p, ?_⟩
        rwa [List.getElem?_append_left]
        exact (List.getElem?_eq_some_iff.mp hp).1

end Linear

end Slots

/-! ### Groups from parts -/

namespace Group

/-- The elements so far and the greatest depth among them, with one part more. -/
def addPart (draft : List Shape × Nat) (part : Option String × Parked) : List Shape × Nat :=
  (Distinct.add draft.1 (elementOf (part.1, part.2.shape)),
    max draft.2 (part.1.elim part.2.depth fun _ => part.2.depth + 1))

/-- A finished group, refused when it is nested too deeply. -/
def limit (shape : Shape) (depth : Nat) : Except Fault Parked :=
  if depth > maxDepth then .error (.tooDeep depth) else .ok ⟨shape, depth⟩

theorem addArrayEntry_of_read {slots slots' : Slots} {entry : Entry}
    {part : Option String × Parked} (h : slots.read entry = .ok (part, slots'))
    (elements : List Shape) (depth : Nat) :
    addArrayEntry ⟨slots, elements, depth⟩ entry =
      .ok ⟨slots', (addPart (elements, depth) part).1, (addPart (elements, depth) part).2⟩ := by
  obtain ⟨name, rfl, rfl, rfl⟩ | ⟨index, htake, hentry⟩ := Slots.read_cases h
  · rfl
  · obtain ⟨name?, parked⟩ := part
    obtain ⟨name, rfl, rfl⟩ | ⟨rfl, rfl⟩ := hentry <;> simp only [addArrayEntry, htake] <;> rfl

theorem addArrayEntries_of_readAll {slots slots' : Slots} {entries : List Entry}
    {parts : List (Option String × Parked)} (h : slots.ReadAll entries parts slots')
    (elements : List Shape) (depth : Nat) :
    entries.foldlM addArrayEntry ⟨slots, elements, depth⟩ =
      .ok ⟨slots', (parts.foldl addPart (elements, depth)).1,
        (parts.foldl addPart (elements, depth)).2⟩ := by
  induction h generalizing elements depth with
  | nil => rfl
  | @cons slots next last entry entries part parts hread _ ih =>
    rw [List.foldlM_cons, List.foldl_cons, addArrayEntry_of_read hread]
    exact ih _ _

theorem close_eq_map_limit (shape : Shape) (depth : Nat) (slots : Slots) :
    close shape depth slots = (limit shape depth).map fun parked => (parked, slots) := by
  unfold close limit
  split_ifs <;> rfl

variable [Shape.MemberOrder]

/-- The members so far and the greatest depth among them, with one part more. -/
def declarePart (draft : List (String × Shape) × Nat) (part : Option String × Parked) :
    Except Fault (List (String × Shape) × Nat) :=
  match part.1 with
  | none => .error .unnamedGroup
  | some name => do
    let members ← (Shape.addMember [] draft.1 name part.2.shape).mapError .conflict
    return (members, max draft.2 part.2.depth)

/-- The group that parts make, once they have been read. -/
def ofParts (kind : GroupKind) (parts : List (Option String × Parked)) : Except Fault Parked :=
  match kind with
  | .object => do
    let (members, depth) ← parts.foldlM declarePart ([], 0)
    limit (.object members) (depth + 1)
  | .array =>
    let (elements, depth) := parts.foldl addPart ([], 0)
    limit (.array elements) (depth + 1)

theorem addObjectEntry_of_read {slots slots' : Slots} {entry : Entry}
    {part : Option String × Parked} (h : slots.read entry = .ok (part, slots'))
    (members : List (String × Shape)) (depth : Nat) :
    addObjectEntry ⟨slots, members, depth⟩ entry =
      (declarePart (members, depth) part).map fun draft => ⟨slots', draft.1, draft.2⟩ := by
  obtain ⟨name, rfl, rfl, rfl⟩ | ⟨index, htake, hentry⟩ := Slots.read_cases h
  · cases hadd : Shape.addMember [] members name Parked.key.shape <;>
      simp [addObjectEntry, declarePart, hadd, bind, Except.bind, pure, Except.pure, Except.map,
        Except.mapError]
  · obtain ⟨name?, parked⟩ := part
    obtain ⟨name, rfl, rfl⟩ | ⟨rfl, rfl⟩ := hentry
    · cases hadd : Shape.addMember [] members name parked.shape <;>
        simp [addObjectEntry, declarePart, htake, hadd, bind, Except.bind, pure, Except.pure,
          Except.map, Except.mapError]
    · rfl

theorem addObjectEntries_of_readAll {slots slots' : Slots} {entries : List Entry}
    {parts : List (Option String × Parked)} (h : slots.ReadAll entries parts slots')
    (members : List (String × Shape)) (depth : Nat) :
    entries.foldlM addObjectEntry ⟨slots, members, depth⟩ =
      (parts.foldlM declarePart (members, depth)).map fun draft => ⟨slots', draft.1, draft.2⟩ := by
  induction h generalizing members depth with
  | nil => rfl
  | @cons slots next last entry entries part parts hread _ ih =>
    rw [List.foldlM_cons, List.foldlM_cons, addObjectEntry_of_read hread]
    cases declarePart (members, depth) part with
    | error e => rfl
    | ok draft => exact ih draft.1 draft.2

/-- Once its entries have been read, a group is made of the parts alone. -/
theorem build_eq_ofParts {kind : GroupKind} {body : List Symbol} {slots slots' : Slots}
    {entries : List Entry} {parts : List (Option String × Parked)}
    (hbody : Entry.ofBody body = .ok entries) (hread : slots.ReadAll entries parts slots') :
    build kind body slots = (ofParts kind parts).map fun parked => (parked, slots') := by
  cases kind with
  | object =>
    have hbuild : build .object body slots =
        entries.foldlM addObjectEntry ⟨slots, [], 0⟩ >>= fun draft =>
          close (.object draft.parts) (draft.depth + 1) draft.slots := by
      rw [build, hbody]
      rfl
    rw [hbuild, addObjectEntries_of_readAll hread, ofParts]
    cases parts.foldlM declarePart ([], 0) with
    | error e => rfl
    | ok draft => exact close_eq_map_limit _ _ _
  | array =>
    have hbuild : build .array body slots =
        entries.foldlM addArrayEntry ⟨slots, [], 0⟩ >>= fun draft =>
          close (.array draft.parts) (draft.depth + 1) draft.slots := by
      rw [build, hbody]
      rfl
    rw [hbuild, addArrayEntries_of_readAll hread, ofParts]
    exact close_eq_map_limit _ _ _

/-- What can be wrong with parts is a group without a name, two shapes of one name, or the depth. -/
theorem ofParts_error_cases {kind : GroupKind} {parts : List (Option String × Parked)}
    {fault : Fault} (h : ofParts kind parts = .error fault) :
    fault = .unnamedGroup ∨ (∃ path, fault = .conflict path) ∨ ∃ depth, fault = .tooDeep depth := by
  have hlimit : ∀ shape depth, limit shape depth = .error fault → fault = .tooDeep depth := by
    intro shape depth h
    unfold limit at h
    split_ifs at h
    exact (Except.error.inj h).symm
  cases kind with
  | array => exact .inr (.inr ⟨_, hlimit _ _ h⟩)
  | object =>
    rw [ofParts] at h
    cases hfold : parts.foldlM declarePart ([], 0) with
    | ok draft =>
      rw [hfold] at h
      exact .inr (.inr ⟨_, hlimit _ _ h⟩)
    | error e =>
      rw [hfold] at h
      cases h
      obtain ⟨draft, ⟨name?, parked⟩, -, hfail⟩ := Outcome.exists_step_of_foldlM_error hfold
      cases name? with
      | none =>
        cases hfail
        exact .inl rfl
      | some name =>
        cases hadd : Shape.addMember [] draft.1 name parked.shape with
        | ok members =>
          simp [declarePart, hadd, bind, Except.bind, pure, Except.pure, Except.mapError] at hfail
        | error path =>
          simp only [declarePart, hadd, bind, Except.bind, Except.mapError] at hfail
          exact .inr (.inl ⟨path, (Except.error.inj hfail).symm⟩)

/-- With linear references a body is refused for its entries, or its group is made of the parts that
they stand for. -/
theorem build_cases (kind : GroupKind) {body : List Symbol} {slots : Slots} {front back : List Nat}
    (h : slots.Linear (front ++ references body ++ back)) :
    (∃ fault, Entry.ofBody body = .error fault ∧ build kind body slots = .error fault) ∨
      ∃ entries parts slots', Entry.ofBody body = .ok entries ∧ slots.ReadAll entries parts slots' ∧
        slots'.Linear (front ++ back) ∧
        build kind body slots = (ofParts kind parts).map fun parked => (parked, slots') := by
  cases hbody : Entry.ofBody body with
  | error fault =>
    refine .inl ⟨fault, rfl, ?_⟩
    rw [build, hbody]
    rfl
  | ok entries =>
    rw [references_of_ofBody hbody] at h
    obtain ⟨parts, slots', hread⟩ := h.exists_readAll
    exact .inr ⟨entries, parts, slots', rfl, hread, h.readAll hread, build_eq_ofParts hbody hread⟩

/-- A group that is built with linear references is made of parts that the slots hold, and the
references of what stands around it stay linear. -/
theorem exists_parts_of_build {kind : GroupKind} {body : List Symbol} {slots slots' : Slots}
    {parked : Parked} {front back : List Nat}
    (h : slots.Linear (front ++ references body ++ back))
    (hbuild : build kind body slots = .ok (parked, slots')) :
    ∃ entries parts, Entry.ofBody body = .ok entries ∧ slots.ReadAll entries parts slots' ∧
      ofParts kind parts = .ok parked ∧ slots'.Linear (front ++ back) := by
  rcases build_cases kind h with
    ⟨fault, -, herror⟩ | ⟨entries, parts, last, hbody, hread, hrest, hparts⟩
  · rw [herror] at hbuild
    cases hbuild
  · rw [hparts] at hbuild
    obtain ⟨built, hbuilt, he⟩ := Outcome.map_eq_ok_iff.mp hbuild
    cases he
    exact ⟨entries, parts, hbody, hread, hbuilt, hrest⟩

/-- With linear references a group is never found dangling. -/
theorem build_ne_dangling {kind : GroupKind} {body : List Symbol} {slots : Slots}
    {front back : List Nat} (h : slots.Linear (front ++ references body ++ back)) (index : Nat) :
    build kind body slots ≠ .error (.danglingReference index) := by
  rcases build_cases kind h with
    ⟨fault, hbody, hbuild⟩ | ⟨entries, parts, slots', -, -, -, hbuild⟩
  · rw [hbuild]
    rintro ⟨⟩
    obtain ⟨entry, he⟩ := exists_entry_of_ofBody_error hbody
    cases he
  · rw [hbuild, Ne, Outcome.map_eq_error_iff]
    intro hparts
    obtain he | ⟨_, he⟩ | ⟨_, he⟩ := ofParts_error_cases hparts <;> cases he

end Group

/-! ### References in a reduction -/

namespace Reduction

/-- The references of the text are those of the groups in the slots. -/
def Linear (state : Reduction) : Prop := state.slots.Linear (references state.text)

theorem linear_start (chars : List Char) : (start chars).Linear := by
  rw [Linear, start, references_ofChars]
  exact Slots.linear_nil

theorem references_innermost (group : Innermost) :
    references group.text =
      references group.before ++ references group.body ++ references group.after := by
  simp [Innermost.text]

theorem Linear.trimmed {state : Reduction} (hs : state.Linear) :
    state.slots.Linear ([] ++ references (trim state.text) ++ []) := by
  rwa [references_trim, List.nil_append, List.append_nil]

variable [Shape.MemberOrder]

/-- A step takes the references of a body away and adds one to the group that is parked. -/
theorem Next.linear {state next : Reduction} (h : state.Next next) (hs : state.Linear) :
    next.Linear := by
  obtain ⟨group, parked, slots, htext, -, hbuild, rfl⟩ := next_iff.mp h
  rw [Linear, htext, references_innermost] at hs
  obtain ⟨entries, parts, -, -, -, hrest⟩ := Group.exists_parts_of_build hs hbuild
  rw [Linear, Innermost.replace, references_append, references_group]
  exact hrest.park parked

theorem Steps.linear {state last : Reduction} (h : Steps state last) (hs : state.Linear) :
    last.Linear := by
  induction h with
  | refl => exact hs
  | tail _ hnext ih => exact hnext.linear ih

/-- A run fails when steps lead to a state that fails, in a step or at the end. -/
theorem run_eq_error_iff {state : Reduction} {fault : Fault} :
    state.run = .error fault ↔
      ∃ last, Steps state last ∧
        (last.step = .error fault ∨ last.step = .ok none ∧ last.finish = .error fault) := by
  induction state using Reduction.run.induct with
  | case1 state e he =>
    rw [run_of_error he]
    constructor
    · rintro ⟨⟩
      exact ⟨state, .refl, .inl he⟩
    · rintro ⟨last, hsteps, hlast⟩
      rcases hsteps.cases_head with rfl | ⟨next, hnext, -⟩
      · simpa [he] using hlast
      · simp [Next, he] at hnext
  | case2 state hnone =>
    rw [run_of_none hnone]
    constructor
    · intro h
      exact ⟨state, .refl, .inr ⟨hnone, h⟩⟩
    · rintro ⟨last, hsteps, hlast⟩
      rcases hsteps.cases_head with rfl | ⟨next, hnext, -⟩
      · simpa [hnone] using hlast
      · simp [Next, hnone] at hnext
  | case3 state next hnext ih =>
    rw [run_of_next hnext, ih]
    constructor
    · rintro ⟨last, hsteps, hlast⟩
      exact ⟨last, .head hnext hsteps, hlast⟩
    · rintro ⟨last, hsteps, hlast⟩
      rcases hsteps.cases_head with rfl | ⟨next', hnext', hsteps⟩
      · simp [hnext] at hlast
      · have he : next' = next := by simpa [Next, hnext, eq_comm] using hnext'
        exact ⟨last, he ▸ hsteps, hlast⟩

/-- A text that is one reference ends the reduction in the group that is parked there. -/
theorem Linear.exists_finish_of_reference {state : Reduction} (hs : state.Linear) {index : Nat}
    (href : trim state.text = [.group index]) :
    ∃ parked, state.slots[index]? = some (some parked) ∧ state.finish = .ok parked.shape := by
  have hindex : index ∈ references state.text := by
    rw [← references_trim, href]
    exact List.mem_singleton_self index
  obtain ⟨parked, hslot⟩ := (hs.holds_iff index).mpr hindex
  refine ⟨parked, hslot, ?_⟩
  rw [finish_of_reference href, Slots.take_eq_ok_iff.mpr ⟨hslot, rfl⟩]
  rfl

/-- What can be wrong at the end of the reduction is wrong with the entries that are left. -/
theorem Linear.build_of_finish_error {state : Reduction} (hs : state.Linear) {fault : Fault}
    (h : state.finish = .error fault) :
    Group.build .object (trim state.text) state.slots = .error fault := by
  by_cases href : ∃ index, trim state.text = [.group index]
  · obtain ⟨index, href⟩ := href
    obtain ⟨parked, -, hfinish⟩ := hs.exists_finish_of_reference href
    cases hfinish.symm.trans h
  · rwa [finish_of_entries fun index hi => href ⟨index, hi⟩, Outcome.map_eq_error_iff] at h

/-- No reference is ever found dangling. -/
theorem Linear.run_ne_dangling {state : Reduction} (hs : state.Linear) (index : Nat) :
    state.run ≠ .error (.danglingReference index) := by
  rw [Ne, run_eq_error_iff]
  rintro ⟨last, hsteps, hstep | ⟨-, hfinish⟩⟩
  · rcases step_error_cases hstep with hscan | ⟨group, hfound, hbuild⟩
    · rcases innermost?_error_cases hscan with ⟨_, he⟩ | ⟨_, _, he⟩ <;> cases he
    · have hlast := Steps.linear hsteps hs
      rw [Linear, (innermost?_eq_some_iff.mp hfound).1, references_innermost] at hlast
      exact Group.build_ne_dangling hlast index hbuild
  · have hlast := Steps.linear hsteps hs
    exact Group.build_ne_dangling hlast.trimmed index (hlast.build_of_finish_error hfinish)

end Reduction

end Allowlist.Rule

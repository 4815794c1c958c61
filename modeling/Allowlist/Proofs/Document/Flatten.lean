import Allowlist.Proofs.Document.Conflict
import Allowlist.Proofs.Document.Spell

/-!
# Proofs.Document.Flatten — a nested document as flat keys

Each text of a document is the value of one key, which spells the steps to it.  A list of texts can
be written in short: under one key that appends them in order (`Data.flatten`).  The placements of
the keys mirror the document: those of a part are those that pass through it (`Put.after_gather`),
and no two conflict (`Data.Flattenable.flat_puts`).
-/

namespace Allowlist

namespace Put

/-- The placements, one step further down. -/
def under (step : Step) (puts : List Put) : List Put :=
  puts.map fun put => (step :: put.1, put.2)

/-- The placements of all groups, those of each under its step. -/
def gather (groups : List (Step × List Put)) : List Put :=
  groups.flatMap fun group => under group.1 group.2

end Put

namespace Data

mutual
/-- One placement for each text, or for each list of texts that `brief` selects by the steps to
it. -/
def puts (brief : List Step → Bool) : Data → List Put
  | .text s => [([], [s])]
  | .list items =>
    if brief [] && items.all (·.text?.isSome) then [([.append], items.filterMap text?)]
    else Put.gather (itemPuts brief 0 items)
  | .object members => Put.gather (memberPuts brief members)
  | _ => []

/-- The placements for each of the items, which are counted from `position`. -/
def itemPuts (brief : List Step → Bool) (position : Nat) : List Data → List (Step × List Put)
  | [] => []
  | item :: items =>
    (.index position, item.puts fun rest => brief (.index position :: rest)) ::
      itemPuts brief (position + 1) items

def memberPuts (brief : List Step → Bool) : List (String × Data) → List (Step × List Put)
  | [] => []
  | (name, value) :: members =>
    (.member name, value.puts fun rest => brief (.member name :: rest)) :: memberPuts brief members
end

/-- The document as values: each text under the path to it, and the texts of a selected list under
one path that appends. -/
def flatten (brief : List Step → Bool) (data : Data) : Values :=
  .ofList ((data.puts brief).flatMap fun put =>
    put.2.map fun item => (Path.ofSteps put.1, item))

/-- A document of texts, lists and objects.  No list or object is empty, no list is longer than
positions can count, and each member has a name that a path can spell. -/
inductive Flattenable : Data → Prop
  | text (s : String) : Flattenable (.text s)
  | list {items : List Data} : items ≠ [] → items.length ≤ Step.positionBound →
      (∀ item ∈ items, Flattenable item) → Flattenable (.list items)
  | object {members : List (String × Data)} : members ≠ [] → Keyed.Sorted members →
      (∀ member ∈ members, IsMemberName member.1) → (∀ member ∈ members, Flattenable member.2) →
      Flattenable (.object members)

theorem map_text_filterMap {items : List Data} (h : items.all (·.text?.isSome) = true) :
    (items.filterMap text?).map .text = items := by
  induction items with
  | nil => rfl
  | cons item items ih =>
    rw [List.all_cons, Bool.and_eq_true] at h
    obtain ⟨s, hs⟩ := Option.isSome_iff_exists.mp h.1
    have hitem : item = .text s := by
      cases item <;> cases hs
      rfl
    rw [List.filterMap_cons_some hs, List.map_cons, ih h.2, hitem]

/-- The items with their positions. -/
def numbered (items : List Data) : List (Nat × Data) :=
  items.mapIdx Prod.mk

theorem mem_numbered {items : List Data} {i : Nat} {item : Data} :
    (i, item) ∈ numbered items ↔ items[i]? = some item := by
  rw [numbered, List.mem_mapIdx, List.getElem?_eq_some_iff]
  constructor
  · rintro ⟨j, hj, he⟩
    cases he
    exact ⟨hj, rfl⟩
  · rintro ⟨hi, rfl⟩
    exact ⟨i, hi, rfl⟩

theorem sorted_numbered (items : List Data) : Keyed.Sorted (numbered items) := by
  rw [Keyed.Sorted, List.pairwise_iff_getElem]
  intro i j hi hj hij
  simpa [numbered] using hij

theorem map_snd_numbered (items : List Data) : (numbered items).map Prod.snd = items := by
  apply List.ext_getElem <;> simp [numbered]

theorem itemPuts_eq (brief : List Step → Bool) (items : List Data) :
    itemPuts brief 0 items = (numbered items).map fun child =>
      (.index child.1, child.2.puts fun rest => brief (.index child.1 :: rest)) := by
  have hfrom : ∀ position, itemPuts brief position items = items.mapIdx fun i item =>
      (.index (position + i),
        item.puts fun rest => brief (.index (position + i) :: rest)) := by
    induction items with
    | nil => exact fun position => rfl
    | cons item items ih =>
      intro position
      simp only [itemPuts, List.mapIdx_cons, ih, Nat.add_zero, Nat.add_right_comm position 1,
        ← Nat.add_assoc]
  rw [hfrom]
  apply List.ext_getElem <;> simp [numbered]

theorem memberPuts_eq (brief : List Step → Bool) (members : List (String × Data)) :
    memberPuts brief members = members.map fun child =>
      (.member child.1, child.2.puts fun rest => brief (.member child.1 :: rest)) := by
  induction members with
  | nil => rfl
  | cons member members ih =>
    obtain ⟨name, value⟩ := member
    rw [memberPuts, ih, List.map_cons]

end Data

/-! ### Groups of placements -/

namespace Put

theorem after_under_self (step : Step) (puts : List Put) : after step (under step puts) = puts := by
  simp [after, under, List.filterMap_map]

theorem after_under_of_ne {step first : Step} (h : first ≠ step) (puts : List Put) :
    after step (under first puts) = [] := by
  simp [after, under, List.filterMap_map, h]

theorem after_gather_of_notMem {groups : List (Step × List Put)} {step : Step}
    (h : step ∉ groups.map Prod.fst) : after step (gather groups) = [] := by
  induction groups with
  | nil => rfl
  | cons group groups ih =>
    obtain ⟨hne, hrest⟩ := not_or.mp (List.mem_cons.not.mp h)
    rw [gather, List.flatMap_cons, after_append, after_under_of_ne (Ne.symm hne)]
    exact ih hrest

/-- What passes through the step of a group is the group. -/
theorem after_gather {groups : List (Step × List Put)} (h : (groups.map Prod.fst).Nodup)
    {step : Step} {puts : List Put} (hmem : (step, puts) ∈ groups) :
    after step (gather groups) = puts := by
  induction groups with
  | nil => cases hmem
  | cons group groups ih =>
    obtain ⟨hnew, hrest⟩ := List.nodup_cons.mp h
    rw [gather, List.flatMap_cons, after_append]
    rcases List.mem_cons.mp hmem with rfl | hmem
    · rw [after_under_self]
      exact (congrArg (puts ++ ·) (after_gather_of_notMem hnew)).trans (List.append_nil puts)
    · have hne : group.1 ≠ step := fun he => hnew (he ▸ List.mem_map_of_mem hmem)
      rw [after_under_of_ne hne]
      exact ih hrest hmem

theorem mem_gather {groups : List (Step × List Put)} {put : Put} :
    put ∈ gather groups ↔
      ∃ step puts rest items, (step, puts) ∈ groups ∧ (rest, items) ∈ puts ∧
        put = (step :: rest, items) := by
  simp only [gather, under, List.mem_flatMap, List.mem_map, Prod.exists]
  constructor
  · rintro ⟨step, puts, hgroup, rest, items, hput, rfl⟩
    exact ⟨step, puts, rest, items, hgroup, hput, rfl⟩
  · rintro ⟨step, puts, rest, items, hgroup, hput, rfl⟩
    exact ⟨step, puts, hgroup, rest, items, hput, rfl⟩

theorem GoOn.of_perm {inObject : Bool} {puts more : List Put} (h : puts.Perm more)
    (hmore : GoOn inObject more) : GoOn inObject puts :=
  fun put hput => hmore put (h.mem_iff.mp hput)

theorem goOn_gather {groups : List (Step × List Put)} {inObject : Bool}
    (h : ∀ group ∈ groups, group.1.isMember = inObject) : GoOn inObject (gather groups) := by
  intro put hmem
  obtain ⟨step, puts, rest, items, hgroup, -, rfl⟩ := mem_gather.mp hmem
  exact ⟨step, rest, rfl, h _ hgroup⟩

theorem appended_eq_nil {puts : List Put} (h : ∀ rest items, (.append :: rest, items) ∉ puts) :
    appended puts = [] := by
  rw [appended, List.flatMap_eq_nil_iff]
  rintro ⟨steps, items⟩ hput
  refine if_neg fun hfirst => ?_
  obtain ⟨rest, rfl⟩ := List.head?_eq_some_iff.mp hfirst
  exact h rest items hput

/-- Placements that can all be made at once, under paths that spell their steps. -/
structure Flat (puts : List Put) : Prop where
  ne_nil : puts ≠ []
  spelled : ∀ put ∈ puts, Step.Spelled put.1
  filled : ∀ put ∈ puts, put.2 ≠ []
  pairwise : puts.Pairwise fun a b => a.1 ≠ b.1 ∧ ¬ Step.Conflict a.1 b.1

/-- A single placement conflicts with no other. -/
theorem Flat.singleton {steps : List Step} {items : List String} (hsteps : Step.Spelled steps)
    (hitems : items ≠ []) : Flat [(steps, items)] where
  ne_nil := by simp
  spelled := List.forall_mem_singleton.mpr hsteps
  filled := List.forall_mem_singleton.mpr hitems
  pairwise := List.pairwise_singleton _ _

/-- Groups under different steps of one kind do not conflict with each other. -/
theorem Flat.gather {groups : List (Step × List Put)} (inObject : Bool) (hne : groups ≠ [])
    (hnodup : (groups.map Prod.fst).Nodup)
    (hkind : ∀ group ∈ groups, group.1.isMember = inObject)
    (hleads : ∀ group ∈ groups, group.1.LeadsOn) (hflat : ∀ group ∈ groups, Flat group.2) :
    Flat (gather groups) where
  ne_nil := by
    obtain ⟨group, hgroup⟩ := List.exists_mem_of_ne_nil groups hne
    obtain ⟨put, hput⟩ := List.exists_mem_of_ne_nil _ (hflat group hgroup).ne_nil
    exact List.ne_nil_of_mem (mem_gather.mpr ⟨_, _, _, _, hgroup, hput, rfl⟩)
  spelled := by
    intro put hmem
    obtain ⟨step, puts, rest, items, hgroup, hput, rfl⟩ := mem_gather.mp hmem
    have hrest := (hflat _ hgroup).spelled _ hput
    exact .cons (hleads _ hgroup) hrest
  filled := by
    intro put hmem
    obtain ⟨step, puts, rest, items, hgroup, hput, rfl⟩ := mem_gather.mp hmem
    exact (hflat _ hgroup).filled (rest, items) hput
  pairwise := by
    rw [Put.gather, List.pairwise_flatMap]
    constructor
    · intro group hgroup
      rw [under, List.pairwise_map]
      refine (hflat group hgroup).pairwise.imp fun {a b} hab => ?_
      rw [Step.conflict_cons_self (hleads group hgroup).ne_append]
      exact ⟨fun he => hab.1 (List.cons.inj he).2, hab.2⟩
    · refine (List.pairwise_map.mp hnodup).imp_of_mem fun {a b} ha hb hab => ?_
      simp only [under, List.forall_mem_map]
      intro x _ y _
      rw [Step.conflict_cons_of_ne (.inl hab), not_not, hkind a ha, hkind b hb]
      exact ⟨fun he => hab (List.cons.inj he).1, rfl⟩

end Put

namespace Data

/-- The steps of sorted children are different. -/
theorem nodup_steps {κ : Type} [LT κ] [LE κ] [Std.IsLinearOrder κ] [Std.LawfulOrderLT κ]
    [DecidableLT κ] {children : List (κ × Data)} (h : Keyed.Sorted children) {wrap : κ → Step}
    (hwrap : Function.Injective wrap) (f : κ × Data → List Put) :
    ((children.map fun child => (wrap child.1, f child)).map Prod.fst).Nodup := by
  have hsteps := h.nodup_keys.map hwrap
  rw [List.map_map] at hsteps ⊢
  exact hsteps

/-- The placements of a document can all be made at once. -/
theorem Flattenable.flat_puts {data : Data} (h : data.Flattenable) (brief : List Step → Bool) :
    Put.Flat (data.puts brief) := by
  induction h generalizing brief with
  | text s => exact .singleton .nil (List.cons_ne_nil _ _)
  | @list items hne hlength _ ih =>
    rw [puts]
    split_ifs with hbrief
    · refine .singleton .append fun hnil => ?_
      obtain ⟨item, hitem⟩ := List.exists_mem_of_ne_nil items hne
      have htexts := List.all_eq_true.mp ((Bool.and_eq_true _ _).mp hbrief).2
      have hnone := List.filterMap_eq_nil_iff.mp hnil item hitem
      have hsome := htexts item hitem
      rw [hnone] at hsome
      cases hsome
    · rw [itemPuts_eq]
      have hchild : ∀ child ∈ numbered items, child.1 < Step.positionBound ∧ child.2 ∈ items := by
        rintro ⟨i, item⟩ hmem
        obtain ⟨hi, hitem⟩ := List.getElem?_eq_some_iff.mp (mem_numbered.mp hmem)
        exact ⟨Nat.lt_of_lt_of_le hi hlength, hitem ▸ List.getElem_mem hi⟩
      have hnumbered : numbered items ≠ [] := fun hnil =>
        hne (by rw [← map_snd_numbered items, hnil, List.map_nil])
      refine .gather false (List.map_eq_nil_iff.not.mpr hnumbered)
        (nodup_steps (sorted_numbered items) (fun _ _ => Step.index.inj) _) ?_ ?_ ?_
      · exact List.forall_mem_map.mpr fun _ _ => rfl
      · exact List.forall_mem_map.mpr fun child hmem => (hchild child hmem).1
      · exact List.forall_mem_map.mpr fun child hmem => ih _ (hchild child hmem).2 _
  | @object members hne hsorted hnames _ ih =>
    rw [puts, memberPuts_eq]
    refine .gather true (List.map_eq_nil_iff.not.mpr hne)
      (nodup_steps hsorted (fun _ _ => Step.member.inj) _) ?_ ?_ ?_
    · exact List.forall_mem_map.mpr fun _ _ => rfl
    · exact List.forall_mem_map.mpr hnames
    · exact List.forall_mem_map.mpr fun member hmem => ih member hmem _

theorem Flattenable.ne_nil_of_perm {data : Data} (h : data.Flattenable) {brief : List Step → Bool}
    {placed : List Put} (hperm : placed.Perm (data.puts brief)) : placed ≠ [] := by
  rintro rfl
  exact (h.flat_puts brief).ne_nil hperm.symm.eq_nil

end Data

end Allowlist

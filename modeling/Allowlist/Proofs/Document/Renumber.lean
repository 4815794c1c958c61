import Allowlist.Proofs.Document.Roundtrip

/-!
# Proofs.Document.Renumber — positions only order the elements of an array

The positions of each array can be given new numbers, as long as the order of those that are used
stays what it is (`Renumbering.Increases`).  Placements then conflict exactly where they did before,
and a tree that holds the renumbered ones, in any order that keeps what is appended at one place in
order, finishes as the same document (`Slot.Holds.toData_renumber`).
-/

namespace Allowlist

open scoped List

open Put

/-! ### Placements in another order -/

namespace Put

/-- A placement passes through the position of the array at the address. -/
def Uses (puts : List Put) (address : List Step) (position : Nat) : Prop :=
  ∃ rest items, (address ++ .index position :: rest, items) ∈ puts

theorem uses_nil_iff {puts : List Put} {position : Nat} :
    Uses puts [] position ↔ after (.index position) puts ≠ [] := by
  rw [Ne, after_eq_nil_iff]
  simp [Uses]

theorem uses_after_iff {step : Step} {puts : List Put} {address : List Step} {position : Nat} :
    Uses (after step puts) address position ↔ Uses puts (step :: address) position := by
  simp only [Uses, mem_after, List.cons_append]

/-- The same placements, and what is appended at one place is appended in one order. -/
structure Same (puts more : List Put) : Prop where
  perm : puts ~ more
  appended : ∀ address, appended (afterAll address puts) = appended (afterAll address more)

theorem Same.after {puts more : List Put} (h : Same puts more) (step : Step) :
    Same (after step puts) (after step more) where
  perm := h.perm.filterMap _
  appended address := h.appended (step :: address)

end Put

/-! ### Renumbered placements -/

/-- The step with a new number for its position, if it has one. -/
def Step.renumber (f : Nat → Nat) : Step → Step
  | .index position => .index (f position)
  | .member name => .member name
  | .append => .append

@[simp] theorem Step.isMember_renumber (f : Nat → Nat) (step : Step) :
    (step.renumber f).isMember = step.isMember := by
  cases step <;> rfl

@[simp] theorem Step.renumber_eq_append_iff {f : Nat → Nat} {step : Step} :
    step.renumber f = .append ↔ step = .append := by
  cases step <;> simp [renumber]

theorem Step.fits_renumber_iff {f : Nat → Nat} {step : Step} :
    (step.renumber f).Fits ↔ ∀ i, step = .index i → f i < positionBound := by
  cases step with
  | index i => exact ⟨fun h j hj => Step.index.inj hj ▸ h, fun h => h i rfl⟩
  | member name => exact iff_of_true trivial nofun
  | append => exact iff_of_true trivial nofun

/-- New numbers for the positions of each array, by the steps to the array. -/
abbrev Renumbering := List Step → Nat → Nat

namespace Renumbering

/-- The new numbers behind the step. -/
def behind (g : Renumbering) (step : Step) : Renumbering := fun address => g (step :: address)

/-- The steps with new numbers; arrays are addressed by the old ones. -/
def steps : Renumbering → List Step → List Step
  | _, [] => []
  | g, step :: rest => step.renumber (g []) :: (g.behind step).steps rest

/-- The placements with new numbers in their steps. -/
def puts (g : Renumbering) (puts : List Put) : List Put :=
  puts.map fun put => (g.steps put.1, put.2)

/-- The positions that are used at one array keep their order. -/
def Increases (g : Renumbering) (puts : List Put) : Prop :=
  ∀ address i j, Uses puts address i → Uses puts address j → i < j → g address i < g address j

variable {g : Renumbering} {placed : List Put}

theorem mem_steps_iff {steps : List Step} {s : Step} :
    s ∈ g.steps steps ↔
      ∃ address step rest, steps = address ++ step :: rest ∧ step.renumber (g address) = s := by
  induction steps generalizing g with
  | nil => simp [Renumbering.steps]
  | cons first steps ih =>
    rw [Renumbering.steps, List.mem_cons, ih]
    constructor
    · rintro (rfl | ⟨address, step, rest, rfl, rfl⟩)
      · exact ⟨[], first, steps, rfl, rfl⟩
      · exact ⟨first :: address, step, rest, rfl, rfl⟩
    · rintro ⟨address, step, rest, he, rfl⟩
      cases address with
      | nil =>
        obtain ⟨rfl, -⟩ := List.cons.inj he
        exact .inl rfl
      | cons _ address =>
        obtain ⟨rfl, rfl⟩ := List.cons.inj he
        exact .inr ⟨address, step, rest, rfl, rfl⟩

/-- The steps fit when all new numbers do. -/
theorem forall_fits_iff {steps : List Step} :
    (∀ step ∈ g.steps steps, step.Fits) ↔
      ∀ address i rest, steps = address ++ .index i :: rest → g address i < Step.positionBound := by
  simp only [mem_steps_iff]
  constructor
  · rintro h address i rest rfl
    exact Step.fits_renumber_iff.mp (h _ ⟨address, .index i, rest, rfl, rfl⟩) i rfl
  · rintro h _ ⟨address, step, rest, rfl, rfl⟩
    refine Step.fits_renumber_iff.mpr fun i hi => ?_
    subst hi
    exact h address i rest rfl

theorem Increases.behind (h : g.Increases placed) (step : Step) :
    (g.behind step).Increases (after step placed) :=
  fun address i j hi hj => h (step :: address) i j (uses_after_iff.mp hi) (uses_after_iff.mp hj)

/-- Used positions with one new number are one. -/
theorem Increases.injective (h : g.Increases placed) {address : List Step} {i j : Nat}
    (hi : Uses placed address i) (hj : Uses placed address j) (he : g address i = g address j) :
    i = j := by
  rcases Nat.lt_trichotomy i j with hlt | heq | hlt
  · have hnew := h address i j hi hj hlt
    omega
  · exact heq
  · have hnew := h address j i hj hi hlt
    omega

theorem Increases.step_injective (h : g.Increases placed) {a b : Step} {as bs : List Step}
    {items items' : List String} (ha : (a :: as, items) ∈ placed) (hb : (b :: bs, items') ∈ placed)
    (he : a.renumber (g []) = b.renumber (g [])) : a = b := by
  cases a with
  | member name => cases b <;> cases he; rfl
  | append => cases b <;> cases he; rfl
  | index i =>
    cases b with
    | index j => exact congrArg Step.index (h.injective ⟨as, items, ha⟩ ⟨bs, items', hb⟩
        (Step.index.inj he))
    | member name => cases he
    | append => cases he

/-- Different steps stay different. -/
theorem Increases.steps_injective (h : g.Increases placed) {as bs : List Step}
    {items items' : List String} (ha : (as, items) ∈ placed) (hb : (bs, items') ∈ placed)
    (he : g.steps as = g.steps bs) : as = bs := by
  induction as generalizing g placed bs with
  | nil =>
    cases bs with
    | nil => rfl
    | cons b bs => cases he
  | cons a as ih =>
    cases bs with
    | nil => cases he
    | cons b bs =>
      obtain ⟨hstep, hrest⟩ := List.cons.inj he
      obtain rfl := h.step_injective ha hb hstep
      rw [ih (h.behind a) (mem_after.mpr ha) (mem_after.mpr hb) hrest]

/-- Renumbered placements conflict exactly where they did. -/
theorem Increases.conflict_iff (h : g.Increases placed) {as bs : List Step}
    {items items' : List String} (ha : (as, items) ∈ placed) (hb : (bs, items') ∈ placed) :
    Step.Conflict (g.steps as) (g.steps bs) ↔ Step.Conflict as bs := by
  induction as generalizing g placed bs with
  | nil => exact iff_of_true (Step.conflict_nil_left _) (Step.conflict_nil_left _)
  | cons a as ih =>
    cases bs with
    | nil => exact iff_of_true (Step.conflict_nil_right _) (Step.conflict_nil_right _)
    | cons b bs =>
      rw [steps, steps]
      by_cases hab : a ≠ b ∨ a = .append
      · have hnew : a.renumber (g []) ≠ b.renumber (g []) ∨ a.renumber (g []) = .append :=
          hab.imp (fun hne he => hne (h.step_injective ha hb he)) Step.renumber_eq_append_iff.mpr
        rw [Step.conflict_cons_of_ne hab, Step.conflict_cons_of_ne hnew, Step.isMember_renumber,
          Step.isMember_renumber]
      · obtain ⟨rfl, happend⟩ := not_or.mp hab |>.imp_left not_not.mp
        have hnew : a.renumber (g []) ≠ .append :=
          fun he => happend (Step.renumber_eq_append_iff.mp he)
        rw [Step.conflict_cons_self happend, Step.conflict_cons_self hnew]
        exact ih (h.behind a) (mem_after.mpr ha) (mem_after.mpr hb)

/-! ### What passes through a step -/

theorem goOn_puts {inObject : Bool} (h : GoOn inObject placed) : GoOn inObject (g.puts placed) := by
  refine List.forall_mem_map.mpr fun put hput => ?_
  obtain ⟨step, rest, hsteps, hkind⟩ := h put hput
  exact ⟨step.renumber (g []), (g.behind step).steps rest, by rw [hsteps]; rfl,
    (step.isMember_renumber _).trans hkind⟩

theorem appended_puts (g : Renumbering) (placed : List Put) :
    appended (g.puts placed) = appended placed := by
  rw [appended, puts, List.flatMap_map]
  refine List.flatMap_congr fun put _ => ?_
  obtain ⟨steps, items⟩ := put
  cases steps with
  | nil => rfl
  | cons step rest => simp only [Renumbering.steps, List.head?_cons, Option.some.injEq,
      Step.renumber_eq_append_iff]

/-- What passes through a step passes through the renumbered step, and through no other. -/
theorem Increases.after_puts (h : g.Increases placed) (step : Step)
    (hstep : ∀ i, step = .index i → Uses placed [] i) :
    after (step.renumber (g [])) (g.puts placed) = (g.behind step).puts (after step placed) := by
  unfold after puts
  rw [List.filterMap_map, List.map_filterMap]
  refine List.filterMap_congr fun put hput => ?_
  obtain ⟨steps, items⟩ := put
  cases steps with
  | nil => rfl
  | cons first rest =>
    by_cases hfirst : first = step
    · subst hfirst
      simp [steps]
    · have hnew : first.renumber (g []) ≠ step.renumber (g []) := by
        intro he
        cases step with
        | member name => cases first <;> cases he; exact hfirst rfl
        | append => exact hfirst (Step.renumber_eq_append_iff.mp he)
        | index i =>
          obtain ⟨rest', items', hmem⟩ := hstep i rfl
          exact hfirst (h.step_injective hput hmem he)
      simp [steps, hfirst, hnew]

/-- Behind a step, renumbered placements are still those of the tree. -/
theorem Increases.same_after (h : g.Increases placed) {more : List Put}
    (hsame : Same (g.puts placed) more) (step : Step)
    (hstep : ∀ i, step = .index i → Uses placed [] i) :
    Same ((g.behind step).puts (after step placed)) (after (step.renumber (g [])) more) :=
  h.after_puts step hstep ▸ hsame.after (step.renumber (g []))

theorem ne_nil_iff_of_same {more : List Put} (h : Same (g.puts placed) more) :
    more ≠ [] ↔ placed ≠ [] := by
  have hmore : more = [] ↔ g.puts placed = [] :=
    ⟨fun he => (he ▸ h.perm).eq_nil, fun he => (he ▸ h.perm).symm.eq_nil⟩
  rw [Ne, Ne, hmore, puts, List.map_eq_nil_iff]

/-- The new positions of an array are the new numbers of those that are used. -/
theorem uses_puts_nil_iff {position : Nat} :
    Uses (g.puts placed) [] position ↔ ∃ i, Uses placed [] i ∧ g [] i = position := by
  constructor
  · rintro ⟨rest, items, hmem⟩
    obtain ⟨⟨steps, items⟩, hput, he⟩ := List.mem_map.mp hmem
    obtain ⟨hsteps, rfl⟩ := Prod.mk.inj he
    cases steps with
    | nil => cases hsteps
    | cons step rest =>
      have hstep := (List.cons.inj hsteps).1
      cases step with
      | index i => exact ⟨i, ⟨rest, items, hput⟩, Step.index.inj hstep⟩
      | member name => cases hstep
      | append => cases hstep
  · rintro ⟨i, ⟨rest, items, hmem⟩, rfl⟩
    exact ⟨_, items, List.mem_map.mpr ⟨_, hmem, rfl⟩⟩

end Renumbering

/-! ### Finished trees -/

namespace Slot

section Children

variable {κ : Type} [LT κ] [DecidableLT κ] [LE κ] [Std.IsLinearOrder κ] [Std.LawfulOrderLT κ]
variable [BEq κ] [LawfulBEq κ]

/-- Sorted parts, each with the placements that it holds, and none of them empty. -/
structure Parts (parts : List (κ × Slot)) (puts : κ → List Put) : Prop where
  sorted : Keyed.Sorted parts
  ne_empty : ∀ part ∈ parts, part.2 ≠ .empty
  holds : ∀ k, Slot.Holds ((parts.lookup k).getD .empty) (puts k)

variable {parts parts' : List (κ × Slot)} {puts puts' : κ → List Put}

/-- There is a part under a key exactly when something was placed there. -/
theorem Parts.mem_iff (h : Parts parts puts) {k : κ} {slot : Slot} :
    (k, slot) ∈ parts ↔ puts k ≠ [] ∧ (parts.lookup k).getD .empty = slot := by
  rw [← h.sorted.lookup_eq_some_iff]
  have hholds := h.holds k
  constructor
  · intro hl
    rw [hl, Option.getD_some] at hholds ⊢
    refine ⟨fun hnil => ?_, rfl⟩
    rw [hnil] at hholds
    exact h.ne_empty (k, slot) (h.sorted.lookup_eq_some_iff.mp hl) hholds.eq_empty
  · rintro ⟨hne, rfl⟩
    cases hl : parts.lookup k with
    | none =>
      rw [hl] at hholds
      exact absurd hholds.eq_nil hne
    | some slot => rfl

/-- Parts under new keys in the same order finish in the same order. -/
theorem Parts.map_toData_eq (h : Parts parts puts) (h' : Parts parts' puts') (rename : κ → κ)
    (hmono : ∀ k l, puts k ≠ [] → puts l ≠ [] → k < l → rename k < rename l)
    (hused : ∀ l, puts' l ≠ [] ↔ ∃ k, puts k ≠ [] ∧ rename k = l)
    (hdata : ∀ k, puts k ≠ [] →
      ((parts'.lookup (rename k)).getD .empty).toData = ((parts.lookup k).getD .empty).toData) :
    parts'.map (fun part => (part.1, part.2.toData)) =
      parts.map fun part => (rename part.1, part.2.toData) := by
  have hsorted' : Keyed.Sorted (parts'.map fun part => (part.1, part.2.toData)) := by
    rw [Keyed.Sorted, List.pairwise_map]
    exact h'.sorted
  have hsorted : Keyed.Sorted (parts.map fun part => (rename part.1, part.2.toData)) := by
    rw [Keyed.Sorted, List.pairwise_map]
    exact h.sorted.imp_of_mem fun ha hb hlt =>
      hmono _ _ (h.mem_iff.mp ha).1 (h.mem_iff.mp hb).1 hlt
  refine hsorted'.eq_of_mem_iff hsorted ?_
  rintro ⟨key, data⟩
  rw [List.mem_map, List.mem_map]
  constructor
  · rintro ⟨⟨l, slot'⟩, hmem, he⟩
    cases he
    obtain ⟨hne', rfl⟩ := h'.mem_iff.mp hmem
    obtain ⟨k, hne, rfl⟩ := (hused l).mp hne'
    exact ⟨(k, _), h.mem_iff.mpr ⟨hne, rfl⟩, by rw [hdata k hne]⟩
  · rintro ⟨⟨k, slot⟩, hmem, he⟩
    cases he
    obtain ⟨hne, rfl⟩ := h.mem_iff.mp hmem
    exact ⟨(rename k, _), h'.mem_iff.mpr ⟨(hused _).mpr ⟨k, hne, rfl⟩, rfl⟩, by rw [hdata k hne]⟩

end Children

/-- A tree that holds the renumbered placements, in an order that keeps what is appended at one
place in order, finishes as the same document. -/
theorem Holds.toData_renumber {slot : Slot} {puts : List Put} (h : slot.Holds puts)
    {g : Renumbering} (hg : g.Increases puts) {slot' : Slot} {puts' : List Put}
    (h' : slot'.Holds puts') (hsame : Same (g.puts puts) puts') : slot'.toData = slot.toData := by
  induction h generalizing g slot' puts' with
  | empty =>
    rw [hsame.perm.symm.eq_nil] at h'
    rw [h'.eq_empty]
  | leaf items =>
    rw [List.perm_singleton.mp hsame.perm.symm] at h'
    cases h' with
    | leaf items => rfl
    | object _ hgo _ _ _ => simpa [Renumbering.steps] using hgo _ (List.mem_singleton_self _)
    | array _ hgo _ _ _ => simpa [Renumbering.steps] using hgo _ (List.mem_singleton_self _)
  | @object members puts hne hgo hsorted hparts hholds ih =>
    have hgo' : GoOn true puts' := .of_perm hsame.perm.symm (Renumbering.goOn_puts hgo)
    obtain ⟨members', rfl⟩ :=
      h'.exists_object ((Renumbering.ne_nil_iff_of_same hsame).mpr hne) hgo'
    obtain ⟨hsorted', hparts', hholds'⟩ := h'.of_members? rfl
    have hafter : ∀ name, Same ((g.behind (.member name)).puts (after (.member name) puts))
        (after (.member name) puts') := fun name => hg.same_after hsame (.member name) nofun
    have hused : ∀ name, after (.member name) puts' ≠ [] ↔
        ∃ k, after (.member k) puts ≠ [] ∧ id k = name := by
      intro name
      rw [Renumbering.ne_nil_iff_of_same (hafter name)]
      exact ⟨fun hne => ⟨name, hne, rfl⟩, fun ⟨_, hne, he⟩ => he ▸ hne⟩
    have hmembers := Parts.map_toData_eq ⟨hsorted, hparts, hholds⟩ ⟨hsorted', hparts', hholds'⟩ id
      (fun _ _ _ _ hlt => hlt) hused
      (fun name _ => ih name (hg.behind _) (hholds' name) (hafter name))
    rw [toData, toData, membersData_eq_map, membersData_eq_map, hmembers]
    rfl
  | @array elements puts hne hgo hsorted hparts hholds ih =>
    have hgo' : GoOn false puts' := .of_perm hsame.perm.symm (Renumbering.goOn_puts hgo)
    obtain ⟨elements', rfl⟩ :=
      h'.exists_elements ((Renumbering.ne_nil_iff_of_same hsame).mpr hne) hgo'
    obtain ⟨hsorted', hparts', hholds', -⟩ := h'.of_elements? rfl
    have hafter : ∀ i, after (.index i) puts ≠ [] →
        Same ((g.behind (.index i)).puts (after (.index i) puts))
          (after (.index (g [] i)) puts') := by
      intro i hi
      refine hg.same_after hsame (.index i) fun j hj => ?_
      exact Step.index.inj hj ▸ uses_nil_iff.mpr hi
    have hused : ∀ i, after (.index i) puts' ≠ [] ↔
        ∃ k, after (.index k) puts ≠ [] ∧ g [] k = i := by
      intro i
      have hperm : Uses puts' [] i ↔ Uses (g.puts puts) [] i := by
        simp only [Uses, hsame.perm.mem_iff]
      rw [← uses_nil_iff, hperm, Renumbering.uses_puts_nil_iff]
      simp only [uses_nil_iff]
    have helements := Parts.map_toData_eq ⟨hsorted, hparts, hholds⟩ ⟨hsorted', hparts', hholds'⟩
      (g []) (fun i j hi hj => hg [] i j (uses_nil_iff.mpr hi) (uses_nil_iff.mpr hj)) hused
      (fun i hi => ih i (hg.behind _) (hholds' (g [] i)) (hafter i hi))
    have hdata : elementsData elements' = elementsData elements := by
      have hsnd := congrArg (List.map Prod.snd) helements
      rw [List.map_map, List.map_map] at hsnd
      rw [elementsData_eq_map, elementsData_eq_map]
      exact hsnd
    have htexts : appended puts' = appended puts :=
      (hsame.appended []).symm.trans (Renumbering.appended_puts g puts)
    rw [toData, toData, hdata, htexts]

end Slot

end Allowlist

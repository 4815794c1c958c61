import Allowlist.Proofs.Document.Content
import Allowlist.Proofs.Document.RenumberKeys

/-!
# Proofs.Document.RenumberValues — documents of keys with new numbers

Values whose keys get new numbers place the same at every step of their keys, and in the same order
where texts are appended (`Renumbering.Suits.same`).  So their document is what it was, as long as
arrays can count to the new numbers; a key with a number beyond that is refused, though it conflicts
with no other (`Document.ofValues_renumber_cases`).
-/

namespace Allowlist

open scoped List

open Put

/-! ### Placements of keys with new numbers -/

namespace Put

theorem afterAll_append (address : List Step) (puts more : List Put) :
    afterAll address (puts ++ more) = afterAll address puts ++ afterAll address more := by
  induction address generalizing puts more with
  | nil => rfl
  | cons step address ih => rw [afterAll, after_append, ih, afterAll, afterAll]

theorem appended_append (puts more : List Put) :
    appended (puts ++ more) = appended puts ++ appended more :=
  List.flatMap_append

theorem appended_afterAll_singleton (address steps : List Step) (items : List String) :
    appended (afterAll address [(steps, items)]) =
      if address ++ [.append] <+: steps then items else [] := by
  induction address generalizing steps with
  | nil => cases steps <;> simp [afterAll, appended, eq_comm]
  | cons step address ih =>
    rw [afterAll]
    cases steps with
    | nil => simp [after, appended]
    | cons first rest =>
      by_cases hfirst : first = step
      · subst hfirst
        simp [after_singleton_self, ih, List.cons_prefix_cons]
      · simp [after_singleton_of_ne hfirst, List.cons_prefix_cons, Ne.symm hfirst, appended]

/-- A key appends its items at an address when it ends there in `[]`. -/
theorem appended_afterAll_entry (address : List Step) (key : String) (items : List String) :
    appended (afterAll address (ofEntries [(key, items)])) =
      if Path.steps? key = some (address ++ [.append]) then items else [] := by
  cases hsteps : Path.steps? key with
  | none => simp [ofEntries, hsteps, appended]
  | some steps =>
    have hone : ofEntries [(key, items)] = [(steps, items)] := by simp [ofEntries, hsteps]
    have hends : address ++ [.append] <+: steps ↔ some steps = some (address ++ [.append]) := by
      constructor
      · rintro ⟨rest, rfl⟩
        rw [List.append_assoc, List.singleton_append] at hsteps
        rw [Document.append_last hsteps, List.append_nil]
      · intro he
        rw [Option.some.inj he]
    rw [hone, appended_afterAll_singleton]
    exact if_congr hends rfl rfl

/-- What is appended at an address are the items of the keys that end there in `[]`, in order. -/
theorem appended_afterAll_ofEntries (address : List Step)
    (entries : List (String × List String)) :
    appended (afterAll address (ofEntries entries)) =
      (entries.filter fun entry => Path.steps? entry.1 = some (address ++ [.append])).flatMap
        Prod.snd := by
  induction entries with
  | nil => exact congrArg appended (afterAll_nil address)
  | cons entry entries ih =>
    obtain ⟨key, items⟩ := entry
    have hsplit : ofEntries ((key, items) :: entries) =
        ofEntries [(key, items)] ++ ofEntries entries :=
      List.filterMap_append (l := [(key, items)])
    rw [hsplit, afterAll_append, appended_append, appended_afterAll_entry, ih]
    by_cases hkey : Path.steps? key = some (address ++ [.append])
    · simp [hkey]
    · simp [hkey]

end Put

/-! ### Values with new numbers -/

/-- The entry under a key with new numbers. -/
def Renumbering.entry (g : Renumbering) (entry : String × List String) : String × List String :=
  (Path.renumber g entry.1, entry.2)

theorem Renumbering.ofEntries_map_entry (g : Renumbering) (entries : List (String × List String)) :
    ofEntries (entries.map g.entry) = g.puts (ofEntries entries) := by
  rw [ofEntries, List.filterMap_map, puts, ofEntries, List.map_filterMap]
  refine List.filterMap_congr fun entry _ => ?_
  rw [Function.comp_apply, Renumbering.entry, Path.steps?_renumber, Option.map_map, Option.map_map]
  rfl

namespace Values

/-- The values under keys with new numbers. -/
def renumber (g : Renumbering) (values : Values) : Values :=
  ⟨Keyed.ofList (values.entries.map g.entry)⟩

/-- A key counts to the position in the array at the address. -/
def Uses (values : Values) (address : List Step) (position : Nat) : Prop :=
  ∃ key ∈ values.keys, ∃ rest, Path.steps? key = some (address ++ .index position :: rest)

theorem uses_iff {values : Values} {address : List Step} {position : Nat} :
    Put.Uses (ofEntries values.entries) address position ↔ values.Uses address position := by
  constructor
  · rintro ⟨rest, items, hput⟩
    obtain ⟨key, hmem, hsteps⟩ := mem_ofEntries.mp hput
    exact ⟨key, List.mem_map_of_mem hmem, rest, hsteps⟩
  · rintro ⟨key, hkey, rest, hsteps⟩
    obtain ⟨⟨_, items⟩, hmem, rfl⟩ := List.mem_map.mp hkey
    exact ⟨rest, items, mem_ofEntries.mpr ⟨_, hmem, hsteps⟩⟩

end Values

/-- The keys are sorted paths without leading zeros, and their positions keep their order. -/
structure Renumbering.Suits (g : Renumbering) (values : Values) : Prop where
  sorted : Keyed.Sorted values.entries
  canonical : ∀ key ∈ values.keys, Path.Canonical key
  paths : ∀ key ∈ values.keys, ∃ steps, Path.steps? key = some steps
  increases : g.Increases (ofEntries values.entries)

namespace Renumbering.Suits

variable {g : Renumbering} {values : Values}

/-- Each key places its items at the end of its steps. -/
theorem exists_put (h : g.Suits values) {key : String} (hkey : key ∈ values.keys) :
    ∃ steps items, Path.steps? key = some steps ∧ (steps, items) ∈ ofEntries values.entries := by
  obtain ⟨steps, hsteps⟩ := h.paths key hkey
  obtain ⟨⟨_, items⟩, hmem, rfl⟩ := List.mem_map.mp hkey
  exact ⟨steps, items, hsteps, mem_ofEntries.mpr ⟨_, hmem, hsteps⟩⟩

/-- Keys of one place stay in order when they get new numbers. -/
theorem renumber_lt (h : g.Suits values) {a b : String} (ha : a ∈ values.keys)
    (hb : b ∈ values.keys)
    (hsteps : Path.steps? (Path.renumber g a) = Path.steps? (Path.renumber g b)) (hlt : a < b) :
    Path.renumber g a < Path.renumber g b := by
  obtain ⟨as, items, has, hputa⟩ := h.exists_put ha
  obtain ⟨bs, items', hbs, hputb⟩ := h.exists_put hb
  rw [Path.steps?_renumber, Path.steps?_renumber, has, hbs] at hsteps
  obtain rfl : as = bs := h.increases.steps_injective hputa hputb (Option.some.inj hsteps)
  exact Path.renumber_lt (h.canonical _ ha) (h.canonical _ hb) has hbs hlt g

/-- Different keys stay different. -/
theorem nodup_keys (h : g.Suits values) : ((values.entries.map g.entry).map Prod.fst).Nodup := by
  rw [List.map_map, List.Nodup, List.pairwise_map]
  refine h.sorted.imp_of_mem fun {a b} ha hb hlt
    (he : Path.renumber g a.1 = Path.renumber g b.1) => ?_
  have hless := h.renumber_lt (List.mem_map_of_mem ha) (List.mem_map_of_mem hb)
    (congrArg Path.steps? he) hlt
  rw [he] at hless
  exact Std.lt_irrefl hless

theorem entries_perm (h : g.Suits values) :
    (values.renumber g).entries ~ values.entries.map g.entry :=
  Keyed.ofList_perm h.nodup_keys

theorem mem_keys_iff (h : g.Suits values) {key : String} :
    key ∈ (values.renumber g).keys ↔ ∃ old ∈ values.keys, Path.renumber g old = key := by
  rw [Values.keys, (h.entries_perm.map Prod.fst).mem_iff, List.map_map, Values.keys]
  simp only [List.mem_map, Function.comp_apply, exists_exists_and_eq_and, entry]

/-- The keys with new numbers, in their order, place what the old ones do. -/
theorem same (h : g.Suits values) :
    Same (g.puts (ofEntries values.entries)) (ofEntries (values.renumber g).entries) := by
  rw [← ofEntries_map_entry]
  refine ⟨h.entries_perm.symm.filterMap _, fun address => ?_⟩
  rw [appended_afterAll_ofEntries, appended_afterAll_ofEntries]
  congr 1
  -- both lists are in order: the keys that are left are those of one place
  have hold : Keyed.Sorted ((values.entries.map g.entry).filter fun entry =>
      Path.steps? entry.1 = some (address ++ [.append])) := by
    rw [Keyed.Sorted, List.pairwise_filter, List.pairwise_map]
    refine h.sorted.imp_of_mem fun {a b} ha hb hlt hsa hsb => ?_
    exact h.renumber_lt (List.mem_map_of_mem ha) (List.mem_map_of_mem hb)
      ((of_decide_eq_true hsa).trans (of_decide_eq_true hsb).symm) hlt
  have hnew : Keyed.Sorted ((values.renumber g).entries.filter fun entry =>
      Path.steps? entry.1 = some (address ++ [.append])) :=
    (Keyed.sorted_ofList _).filter _
  exact hold.eq_of_mem_iff hnew fun entry => (h.entries_perm.filter _).mem_iff.symm

/-- Keys that did not conflict do not conflict under new numbers. -/
theorem not_conflict (h : g.Suits values)
    (hpairs : ∀ a ∈ values.keys, ∀ b ∈ values.keys, a ≠ b → ¬ Path.Conflict a b) {a b : String}
    (ha : a ∈ (values.renumber g).keys) (hb : b ∈ (values.renumber g).keys) (hne : a ≠ b) :
    ¬ Path.Conflict a b := by
  obtain ⟨a, holda, rfl⟩ := h.mem_keys_iff.mp ha
  obtain ⟨b, holdb, rfl⟩ := h.mem_keys_iff.mp hb
  obtain ⟨as, items, has, hputa⟩ := h.exists_put holda
  obtain ⟨bs, items', hbs, hputb⟩ := h.exists_put holdb
  rintro ⟨_, _, hnewa, hnewb, hconflict⟩
  rw [Path.steps?_renumber, has] at hnewa
  rw [Path.steps?_renumber, hbs] at hnewb
  cases hnewa
  cases hnewb
  exact hpairs _ holda _ holdb (fun he => hne (congrArg _ he))
    ⟨as, bs, has, hbs, (h.increases.conflict_iff hputa hputb).mp hconflict⟩

/-- A key that cannot join conflicts with none, so one of its numbers is too great. -/
theorem exists_great_of_not_joins (h : g.Suits values)
    (hpairs : ∀ a ∈ values.keys, ∀ b ∈ values.keys, a ≠ b → ¬ Path.Conflict a b)
    {front back : List String} {key : String}
    (hkeys : (values.renumber g).keys = front ++ key :: back)
    (hnot : ¬ Document.Joins front key) :
    ∃ old ∈ values.keys, ∃ address i rest, Path.renumber g old = key ∧
      Path.steps? old = some (address ++ .index i :: rest) ∧ Step.positionBound ≤ g address i := by
  have hkey : key ∈ (values.renumber g).keys := by simp [hkeys]
  have hnodup : (front ++ key :: back).Nodup :=
    hkeys ▸ (h.entries_perm.map Prod.fst).nodup_iff.mpr h.nodup_keys
  have hfront : ∀ other ∈ front, ¬ Path.Conflict other key := by
    intro other hother
    refine h.not_conflict hpairs (by simp [hkeys, hother]) hkey ?_
    exact (List.nodup_append.mp hnodup).2.2 other hother key List.mem_cons_self
  obtain ⟨old, hold, rfl⟩ := h.mem_keys_iff.mp hkey
  obtain ⟨steps, hsteps⟩ := h.paths old hold
  have hnew : Path.steps? (Path.renumber g old) = some (g.steps steps) := by
    rw [Path.steps?_renumber, hsteps, Option.map_some]
  have hgreat : ¬ ∀ step ∈ g.steps steps, step.Fits :=
    fun hfits => hnot ⟨⟨_, hnew, hfits⟩, hfront⟩
  rw [forall_fits_iff] at hgreat
  simp only [not_forall, Nat.not_lt, exists_prop] at hgreat
  obtain ⟨address, i, rest, rfl, hge⟩ := hgreat
  exact ⟨old, hold, address, i, rest, rfl, hsteps, hge⟩

end Renumbering.Suits

/-! ### Documents -/

/-- New numbers for the positions of one array. -/
def Renumbering.single (address : List Step) (f : Nat → Nat) : Renumbering :=
  fun other => if other = address then f else id

namespace Document

variable {values : Values} {document : Data} {g : Renumbering}

/-- The keys of a document can join each other. -/
theorem joinInTurn_of_ofValues (h : ofValues values = .ok document) : JoinInTurn values.keys := by
  unfold ofValues at h
  obtain ⟨root, hroot, -⟩ := Outcome.bind_eq_ok_iff.mp h
  exact joinInTurn_of_slots hroot

theorem exists_fits_of_ofValues (h : ofValues values = .ok document) {key : String}
    (hkey : key ∈ values.keys) :
    ∃ steps, Path.steps? key = some steps ∧ ∀ step ∈ steps, step.Fits := by
  obtain ⟨front, back, hkeys⟩ := List.append_of_mem hkey
  exact (joinInTurn_of_ofValues h front key back hkeys).1

/-- The document of the keys with new numbers, if there is one, is the same. -/
theorem ofValues_renumber_eq (hg : g.Suits values) (h : ofValues values = .ok document)
    {document' : Data} (h' : ofValues (values.renumber g) = .ok document') :
    document' = document := by
  obtain ⟨hnil, rfl⟩ | ⟨root, -, hholds, hne, rfl⟩ := holds_of_ofValues h
  · have hnil' : (values.renumber g).entries = [] := by
      rw [Values.renumber, hnil]
      rfl
    obtain ⟨-, rfl⟩ | ⟨root', -, hholds', hne', -⟩ := holds_of_ofValues h'
    · rfl
    · rw [hnil'] at hholds'
      exact absurd hholds'.eq_empty hne'
  · obtain ⟨hnil', -⟩ | ⟨root', -, hholds', -, rfl⟩ := holds_of_ofValues h'
    · have hperm := hg.entries_perm
      rw [hnil'] at hperm
      rw [List.map_eq_nil_iff.mp hperm.symm.eq_nil] at hholds
      exact absurd hholds.eq_empty hne
    · exact hholds.toData_renumber hg.increases hholds' hg.same

/-- Keys with new numbers make the same document, or one of them has a number that is too great and
is refused. -/
theorem ofValues_renumber_cases (hg : g.Suits values) (h : ofValues values = .ok document) :
    ((∀ address i, values.Uses address i → g address i < Step.positionBound) ∧
        ofValues (values.renumber g) = .ok document) ∨
      ∃ key ∈ values.keys, ∃ address i rest,
        Path.steps? key = some (address ++ .index i :: rest) ∧ Step.positionBound ≤ g address i ∧
          ofValues (values.renumber g) = .error (.conflictingPath (Path.renumber g key)) := by
  have hpairs := ((joinInTurn_iff hg.sorted.nodup_keys).mp (joinInTurn_of_ofValues h)).2
  obtain ⟨-, root, hroot, -⟩ | ⟨front, key, back, hkeys, -, hnot, herror⟩ :=
    slots_cases (values.renumber g).entries
  · obtain ⟨document', hdocument⟩ := ofValues_of_slots hroot
    refine .inl ⟨?_, ofValues_renumber_eq hg h hdocument ▸ hdocument⟩
    rintro address i ⟨key, hkey, rest, hsteps⟩
    obtain ⟨steps, hnew, hfits⟩ :=
      exists_fits_of_ofValues hdocument (hg.mem_keys_iff.mpr ⟨key, hkey, rfl⟩)
    rw [Path.steps?_renumber, hsteps] at hnew
    cases hnew
    exact Renumbering.forall_fits_iff.mp hfits address i rest rfl
  · obtain ⟨old, hold, address, i, rest, rfl, hsteps, hge⟩ :=
      hg.exists_great_of_not_joins hpairs hkeys hnot
    have htokens : Path.tokenize? (Path.renumber g old) ≠ none := by
      obtain ⟨hops, hold, -⟩ := Option.map_eq_some_iff.mp hsteps
      rw [Path.tokenize?_renumber, hold]
      exact Option.some_ne_none _
    rw [refusal, if_neg htokens] at herror
    exact .inr ⟨old, hold, address, i, rest, hsteps, hge, ofValues_of_slots_error herror⟩

/-- New numbers for one array suit the values when they keep the order of the used positions. -/
theorem suits_single (hsorted : Keyed.Sorted values.entries)
    (hcanonical : ∀ key ∈ values.keys, Path.Canonical key) (h : ofValues values = .ok document)
    {address : List Step} {f : Nat → Nat}
    (hf : ∀ i j, values.Uses address i → values.Uses address j → i < j → f i < f j) :
    (Renumbering.single address f).Suits values where
  sorted := hsorted
  canonical := hcanonical
  paths key hkey := (exists_fits_of_ofValues h hkey).imp fun _ => And.left
  increases other i j hi hj hlt := by
    rw [Renumbering.single]
    split_ifs with hother
    · subst hother
      exact hf i j (Values.uses_iff.mp hi) (Values.uses_iff.mp hj) hlt
    · exact hlt

theorem lt_positionBound_of_uses (h : ofValues values = .ok document) {address : List Step}
    {i : Nat} (hi : values.Uses address i) : i < Step.positionBound := by
  obtain ⟨key, hkey, rest, hsteps⟩ := hi
  obtain ⟨steps, hsteps', hfits⟩ := exists_fits_of_ofValues h hkey
  cases hsteps.symm.trans hsteps'
  exact hfits (.index i) (by simp)

/-- The positions of an array order its elements and do nothing else, as long as they can be
counted.  When those that are used get new numbers in the same order, in every key that passes
through the array, the document stays what it is if all new numbers fit; if one does not, a key with
such a number is refused, as if it conflicted with another. -/
theorem renumber_eq_ok_iff (hsorted : Keyed.Sorted values.entries)
    (hcanonical : ∀ key ∈ values.keys, Path.Canonical key) (h : ofValues values = .ok document)
    {address : List Step} {f : Nat → Nat}
    (hf : ∀ i j, values.Uses address i → values.Uses address j → i < j → f i < f j) :
    (ofValues (values.renumber (.single address f)) = .ok document ↔
        ∀ i, values.Uses address i → f i < Step.positionBound) ∧
      ((∃ i, values.Uses address i ∧ Step.positionBound ≤ f i) →
        ∃ key ∈ values.keys, ∃ i rest, Path.steps? key = some (address ++ .index i :: rest) ∧
          Step.positionBound ≤ f i ∧ ofValues (values.renumber (.single address f)) =
            .error (.conflictingPath (Path.renumber (.single address f) key))) := by
  obtain ⟨hall, hnew⟩ | ⟨key, hkey, other, i, rest, hsteps, hge, hnew⟩ :=
    ofValues_renumber_cases (suits_single hsorted hcanonical h hf) h
  · have hfits : ∀ i, values.Uses address i → f i < Step.positionBound := by
      intro i hi
      have hlt := hall address i hi
      rwa [Renumbering.single, if_pos rfl] at hlt
    refine ⟨iff_of_true hnew hfits, ?_⟩
    rintro ⟨i, hi, hge⟩
    exact absurd (hfits i hi) (Nat.not_lt.mpr hge)
  · have huses : values.Uses other i := ⟨key, hkey, rest, hsteps⟩
    rw [Renumbering.single] at hge
    split_ifs at hge with hother
    · subst hother
      refine ⟨iff_of_false (fun hok => ?_) fun hall => ?_, fun _ =>
        ⟨key, hkey, i, rest, hsteps, hge, hnew⟩⟩
      · cases hnew.symm.trans hok
      · exact absurd (hall i huses) (Nat.not_lt.mpr hge)
    · -- elsewhere the numbers are those of the document
      exact absurd (lt_positionBound_of_uses h huses) (Nat.not_lt.mpr hge)

/-- Numbers in the order of their texts get numbers that are not, and the array stays. -/
theorem renumber_eq_ok_iff_reordered :
    let values : Values := ⟨[("a[10]", ["x"]), ("a[2]", ["y"])]⟩
    let document : Data := .object [("a", .list [.text "y", .text "x"])]
    (Keyed.Sorted values.entries ∧ (∀ key ∈ values.keys, Path.Canonical key) ∧
        ofValues values = .ok document ∧
        ∀ i, values.Uses [.member "a"] i → 50 * i < Step.positionBound) ∧
      values.renumber (.single [.member "a"] (50 * ·)) = ⟨[("a[100]", ["y"]), ("a[500]", ["x"])]⟩ ∧
      ofValues ⟨[("a[100]", ["y"]), ("a[500]", ["x"])]⟩ = .ok document := by
  intro values document
  have hfirst : addKey .empty "a[10]" ["x"] =
      .ok (.object [("a", .array [(10, .leaf ["x"])] [])]) :=
    addKey_eq_ok_iff.mpr ⟨[.name "a", .bracket "10"], [.member "a", .index 10], by decide +kernel,
      by decide +kernel, rfl⟩
  have hsecond : addKey (.object [("a", .array [(10, .leaf ["x"])] [])]) "a[2]" ["y"] =
      .ok (.object [("a", .array [(2, .leaf ["y"]), (10, .leaf ["x"])] [])]) :=
    addKey_eq_ok_iff.mpr ⟨[.name "a", .bracket "2"], [.member "a", .index 2], by decide +kernel,
      by decide +kernel, rfl⟩
  have hslots : slots values =
      .ok (.object [("a", .array [(2, .leaf ["y"]), (10, .leaf ["x"])] [])]) := by
    simp only [slots, Outcome.foldlM_cons_eq_ok_iff, values]
    exact ⟨_, hfirst, _, hsecond, rfl⟩
  have hold : ofValues values = .ok document := by
    rw [ofValues, hslots]
    rfl
  have hsorted : Keyed.Sorted values.entries := by decide +kernel
  have hcanonical : ∀ key ∈ values.keys, Path.Canonical key := by decide +kernel
  have hsteps : ∀ key ∈ values.keys, ∃ i < 11, Path.steps? key = some [.member "a", .index i] := by
    decide +kernel
  have hfits : ∀ i, values.Uses [.member "a"] i → 50 * i < Step.positionBound := by
    rintro i ⟨key, hkey, rest, hread⟩
    obtain ⟨j, hj, hread'⟩ := hsteps key hkey
    cases hread.symm.trans hread'
    exact Nat.lt_trans (Nat.mul_lt_mul_of_pos_left hj (by decide)) (by decide)
  have hnew : values.renumber (.single [.member "a"] (50 * ·)) =
      ⟨[("a[100]", ["y"]), ("a[500]", ["x"])]⟩ := by
    decide +kernel
  have hdocument := (renumber_eq_ok_iff hsorted hcanonical hold
    fun _ _ _ _ hlt => Nat.mul_lt_mul_of_pos_left hlt (by decide)).1.mpr hfits
  exact ⟨⟨hsorted, hcanonical, hold, hfits⟩, hnew, hnew ▸ hdocument⟩

/-- One key is refused for a conflict: the only number in its array is too great. -/
theorem renumber_too_great :
    let values : Values := ⟨[("a[0]", ["x"])]⟩
    let more : Nat → Nat := (· + 18446744073709551616)
    Keyed.Sorted values.entries ∧ (∀ key ∈ values.keys, Path.Canonical key) ∧
      ofValues values = .ok (.object [("a", .list [.text "x"])]) ∧
      (∀ i j, values.Uses [.member "a"] i → values.Uses [.member "a"] j → i < j →
        more i < more j) ∧
      values.renumber (.single [.member "a"] more) = ⟨[("a[18446744073709551616]", ["x"])]⟩ ∧
      ofValues ⟨[("a[18446744073709551616]", ["x"])]⟩ =
        .error (.conflictingPath "a[18446744073709551616]") := by
  intro values more
  have hadd : addKey .empty "a[0]" ["x"] = .ok (.object [("a", .array [(0, .leaf ["x"])] [])]) :=
    addKey_eq_ok_iff.mpr ⟨[.name "a", .bracket "0"], [.member "a", .index 0], by decide +kernel,
      by decide +kernel, rfl⟩
  have hold : ofValues values = .ok (.object [("a", .list [.text "x"])]) := by
    rw [ofValues, slots, List.foldlM_cons, hadd]
    rfl
  have htokens : Path.tokenize? "a[18446744073709551616]" =
      some [.name "a", .bracket "18446744073709551616"] := by
    decide +kernel
  have hsteps : [Hop.name "a", .bracket "18446744073709551616"].mapM Hop.step? = none := by
    decide +kernel
  have hrefused : addKey .empty "a[18446744073709551616]" ["x"] =
      .error (.conflictingPath "a[18446744073709551616]") := by
    rw [addKey, htokens]
    dsimp only
    rw [hsteps]
    rfl
  have hnew : ofValues ⟨[("a[18446744073709551616]", ["x"])]⟩ =
      .error (.conflictingPath "a[18446744073709551616]") := by
    rw [ofValues, slots, List.foldlM_cons, hrefused]
    rfl
  exact ⟨by decide +kernel, by decide +kernel, hold,
    fun _ _ _ _ hlt => Nat.add_lt_add_right hlt _, by decide +kernel, hnew⟩

end Document

end Allowlist

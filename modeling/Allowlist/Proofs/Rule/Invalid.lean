import Allowlist.Proofs.Rule.Legible
import Allowlist.Proofs.Rule.Unambiguous

/-!
# Proofs.Rule.Invalid — the entry that an error shows

An entry is refused where it stands in the working text, in which the groups inside it are
references already.  The error shows it as the rule has it: a piece of the rule between two commas,
with each of its outermost groups as three dots (`Dotted`).  Written out, the references of a piece
are its outermost groups and no other part of it (`Sources.Flat.eq_group_of_expand`), so what is
refused is no entry of the grammar, whatever it was reduced to (`invalidEntry_shown`).
-/

namespace Allowlist.Rule

open Allowlist.Rule.Symbol

/-! ### Entries of a rule -/

/-- The text with each of its outermost groups as three dots. -/
inductive Dotted : List Char → List Char → Prop
  | nil : Dotted [] []
  | char {c : Char} {text shown : List Char} : GroupKind.ofOpener? c = none →
      GroupKind.ofCloser? c = none → Dotted text shown → Dotted (c :: text) (c :: shown)
  | group {tree : Tree} {u text shown : List Char} : GroupText tree u → Dotted text shown →
      Dotted (u ++ text) (['.', '.', '.'] ++ shown)

/-- The pieces of a body between the commas that stand in none of its groups. -/
structure Pieces (body : List Char) (pieces : List (List Char)) : Prop where
  join_eq : [','].intercalate pieces = body
  dotted : ∀ piece ∈ pieces, ∃ shown, Dotted piece shown ∧ ',' ∉ shown

/-- The rule as a whole, or what stands between the delimiters of a group in it. -/
inductive HasBody (rule : List Char) : List Char → Prop
  | whole : HasBody rule rule
  | group {kind : GroupKind} {before body after : List Char} :
      rule = before ++ kind.opener :: (body ++ kind.closer :: after) → HasBody rule body

/-! ### References written out -/

/-- The characters with which an error shows the symbol. -/
def Symbol.dots : Symbol → List Char
  | .char c => [c]
  | .group _ => ['.', '.', '.']

theorem describe_eq (text : List Symbol) :
    describe text = String.ofList (text.flatMap Symbol.dots) := by
  rw [describe]
  congr 2

theorem trim_dots (text : List Symbol) :
    Written.trim (text.flatMap Symbol.dots) = (trim text).flatMap Symbol.dots :=
  Written.trim_flatMap (fun _ => rfl) (fun _ => ⟨List.cons_ne_nil _ _, by simp [dots]⟩) text

namespace Sources

/-- A text without delimiters, in which every reference stands for a group. -/
structure Flat (sources : Sources) (text : List Symbol) : Prop where
  plain : ∀ s ∈ text, s.closes? = none ∧ s.opens? = none
  group : ∀ index, Symbol.group index ∈ text →
    ∃ tree u, sources[index]? = some (tree, u) ∧ GroupText tree u

namespace Flat

variable {sources : Sources} {text : List Symbol}

theorem of_subset (h : sources.Flat text) {part : List Symbol} (hpart : ∀ s ∈ part, s ∈ text) :
    sources.Flat part where
  plain s hs := h.plain s (hpart s hs)
  group index hindex := h.group index (hpart _ hindex)

theorem tail {s : Symbol} (h : sources.Flat (s :: text)) : sources.Flat text :=
  h.of_subset fun _ ht => List.mem_cons_of_mem s ht

/-- Written out, a text is shown with its references as dots. -/
theorem dotted (h : sources.Flat text) :
    Dotted (sources.expand text) (text.flatMap Symbol.dots) := by
  induction text with
  | nil => exact .nil
  | cons s text ih =>
    have hrest := ih h.tail
    rw [expand_cons, List.flatMap_cons]
    cases s with
    | char c =>
      obtain ⟨hcloses, hopens⟩ := h.plain _ List.mem_cons_self
      exact .char hopens hcloses hrest
    | group index =>
      obtain ⟨tree, u, hsource, hu⟩ := h.group index List.mem_cons_self
      rw [expandSymbol_group hsource]
      exact .group hu hrest

/-- A text that is written out without an opening delimiter has no reference. -/
theorem eq_ofChars_of_expand (h : sources.Flat text)
    (hplain : ∀ c ∈ sources.expand text, GroupKind.ofOpener? c = none) :
    text = ofChars (sources.expand text) := by
  induction text with
  | nil => rfl
  | cons s text ih =>
    rw [expand_cons] at hplain ⊢
    obtain ⟨hfirst, hrest⟩ := List.forall_mem_append.mp hplain
    cases s with
    | char c => exact congrArg (Symbol.char c :: ·) (ih h.tail hrest)
    | group index =>
      obtain ⟨tree, u, hsource, hu⟩ := h.group index List.mem_cons_self
      obtain ⟨kind, v, rfl⟩ := hu.exists_cons
      rw [expandSymbol_group hsource] at hfirst
      cases (opens?_char_opener kind).symm.trans (hfirst _ List.mem_cons_self)

/-- The one group of what is written out is the one reference. -/
theorem eq_group_of_expand (h : sources.Flat text) {tree : Tree} {a u b : List Char}
    (ha : ∀ c ∈ a, GroupKind.ofOpener? c = none) (hb : ∀ c ∈ b, GroupKind.ofOpener? c = none)
    (hu : GroupText tree u) (he : sources.expand text = a ++ (u ++ b)) :
    ∃ index, text = ofChars a ++ .group index :: ofChars b := by
  obtain ⟨kind, v, hv⟩ := hu.exists_cons
  induction text generalizing a with
  | nil => simp [expand, hv] at he
  | cons s text ih =>
    rw [expand_cons] at he
    cases s with
    | char c =>
      obtain ⟨-, hopens⟩ := h.plain _ List.mem_cons_self
      cases a with
      | nil =>
        -- the group would begin with a delimiter of the text
        rw [List.nil_append, hv] at he
        obtain rfl : c = kind.opener := (List.cons.inj he).1
        cases (opens?_char_opener kind).symm.trans hopens
      | cons d a =>
        obtain ⟨rfl, hrest⟩ := List.cons.inj he
        obtain ⟨index, htext⟩ := ih h.tail (List.forall_mem_cons.mp ha).2 hrest
        exact ⟨index, congrArg (Symbol.char c :: ·) htext⟩
    | group index =>
      obtain ⟨tree', u', hsource, hu'⟩ := h.group index List.mem_cons_self
      rw [expandSymbol_group hsource] at he
      cases a with
      | nil =>
        obtain ⟨-, -, hrest⟩ := hu'.unique hu he
        have htext := h.tail.eq_ofChars_of_expand (hrest ▸ hb)
        exact ⟨index, congrArg (Symbol.group index :: ·) (hrest ▸ htext)⟩
      | cons d a =>
        obtain ⟨kind', v', rfl⟩ := hu'.exists_cons
        obtain rfl : kind'.opener = d := (List.cons.inj he).1
        cases (opens?_char_opener kind').symm.trans (ha _ List.mem_cons_self)

/-- An entry of the grammar is read as one, with its group as a reference. -/
theorem exists_spells (h : sources.Flat text) {part : Option String × Tree}
    (hentry : EntryText .array part (sources.expand text)) :
    ∃ entry : Entry, entry.Spells text := by
  have hplain : ∀ {entry : Entry} {spelled : List Symbol} {cs : List Char}, entry.Spells spelled →
      (∀ c ∈ cs, Symbol.char c ∈ spelled) → ∀ c ∈ cs, GroupKind.ofOpener? c = none :=
    fun hspells hcs c hc => (hspells.no_delimiter _ (hcs c hc)).2
  generalize hwhole : sources.expand text = whole at hentry
  cases hentry with
  | @key _ name p k q hp hk hq =>
    have hspells : (Entry.key name).Spells (ofChars (p ++ k ++ q)) := .key hp hk hq
    have htext := h.eq_ofChars_of_expand
      (hwhole ▸ hplain hspells fun c hc => List.mem_map_of_mem hc)
    exact ⟨.key name, by rwa [htext, hwhole]⟩
  | @keyed _ name tree p k q r u s hp hk hq hr hu hs =>
    have hspells : ∀ index, (Entry.keyed name index).Spells
        (ofChars (p ++ k ++ q ++ ':' :: r) ++ .group index :: ofChars s) :=
      fun index => .keyed hp hk hq hr hs
    obtain ⟨index, htext⟩ := h.eq_group_of_expand (a := p ++ k ++ q ++ ':' :: r) (b := s)
      (hplain (hspells 0) fun c hc => List.mem_append_left _ (List.mem_map_of_mem hc))
      (hplain (hspells 0) fun c hc =>
        List.mem_append_right _ (List.mem_cons_of_mem _ (List.mem_map_of_mem hc)))
      hu (by rw [hwhole]; simp)
    exact ⟨.keyed name index, htext ▸ hspells index⟩
  | @alone tree p u q hp hu hq =>
    have hspells : ∀ index, (Entry.group index).Spells (ofChars p ++ .group index :: ofChars q) :=
      fun index => .group hp hq
    obtain ⟨index, htext⟩ := h.eq_group_of_expand (a := p) (b := q)
      (hplain (hspells 0) fun c hc => List.mem_append_left _ (List.mem_map_of_mem hc))
      (hplain (hspells 0) fun c hc =>
        List.mem_append_right _ (List.mem_cons_of_mem _ (List.mem_map_of_mem hc)))
      hu (by rw [hwhole, List.append_assoc])
    exact ⟨.group index, htext ▸ hspells index⟩

theorem expand_intercalate (sources : Sources) (parts : List (List Symbol)) :
    [','].intercalate (parts.map sources.expand) =
      sources.expand ([.char ','].intercalate parts) := by
  induction parts with
  | nil => rfl
  | cons first rest ih =>
    cases rest with
    | nil => simp
    | cons second rest =>
      rw [List.map_cons, List.map_cons, List.intercalate_cons_cons, List.intercalate_cons_cons,
        expand_append, expand_append, ← ih]
      rfl

theorem comma_notMem_of_mem_splitOn {part : List Symbol} (hpart : part ∈ text.splitOn (.char ',')) :
    .char ',' ∉ part := by
  induction text generalizing part with
  | nil =>
    rw [List.splitOn_nil, List.mem_singleton] at hpart
    rw [hpart]
    exact List.not_mem_nil
  | cons s text ih =>
    rw [List.splitOn_cons_eq_if_modifyHead] at hpart
    split_ifs at hpart with hs
    · rcases List.mem_cons.mp hpart with rfl | hpart
      · exact List.not_mem_nil
      · exact ih hpart
    · generalize text.splitOn (.char ',') = parts at hpart ih
      cases parts with
      | nil => cases hpart
      | cons first rest =>
        rcases List.mem_cons.mp hpart with rfl | hpart
        · refine List.not_mem_cons_of_ne_of_not_mem (fun he => hs (by simp [he])) ?_
          exact ih List.mem_cons_self
        · exact ih (List.mem_cons_of_mem _ hpart)

/-- Written out, the texts between the commas of a body are its pieces. -/
theorem pieces (h : sources.Flat text) :
    Pieces (sources.expand text) ((text.splitOn (.char ',')).map sources.expand) where
  join_eq := by rw [expand_intercalate, List.intercalate_splitOn]
  dotted := List.forall_mem_map.mpr fun part hpart => by
    have hflat := h.of_subset fun s hs => Written.mem_of_mem_splitOn hpart hs
    refine ⟨_, hflat.dotted, fun hcomma => ?_⟩
    obtain ⟨s, hs, hc⟩ := List.mem_flatMap.mp hcomma
    cases s with
    | char c =>
      obtain rfl := List.mem_singleton.mp hc
      exact comma_notMem_of_mem_splitOn hpart hs
    | group index => simp [dots] at hc

end Flat

end Sources

/-! ### Where an entry is refused -/

/-- A body that is refused has a text between two commas that spells no entry. -/
theorem exists_piece_of_ofBody_error {body : List Symbol} {entry : String}
    (h : Entry.ofBody body = .error (.invalidEntry entry)) :
    ∃ piece ∈ body.splitOn (.char ','), (∀ found : Entry, ¬ found.Spells piece) ∧
      entry = describe (trim piece) := by
  unfold Entry.ofBody at h
  split_ifs at h
  obtain ⟨piece, hpiece, hfail⟩ := Outcome.exists_mapM_error h
  refine ⟨piece, hpiece, fun found hfound => ?_, ?_⟩
  · rw [ofText_eq_ok_iff.mpr hfound] at hfail
    cases hfail
  · unfold Entry.ofText at hfail
    dsimp only at hfail
    split at hfail <;> cases hfail
    rfl

/-- A group that is refused for an entry is refused while its body is read. -/
theorem Group.ofBody_of_build_invalid {kind : GroupKind} {body : List Symbol} {slots : Slots}
    {front back : List Nat} {entry : String}
    (h : slots.Linear (front ++ references body ++ back))
    (hbuild : build kind body slots = .error (.invalidEntry entry)) :
    Entry.ofBody body = .error (.invalidEntry entry) := by
  rcases build_cases kind h with ⟨fault, hbody, hfault⟩ | ⟨entries, parts, slots', -, -, -, hparts⟩
  · cases hfault.symm.trans hbuild
    exact hbody
  · rw [hparts, Outcome.map_eq_error_iff] at hbuild
    obtain he | ⟨_, he⟩ | ⟨_, he⟩ := ofParts_error_cases hbuild <;> cases he

/-- With linear references a text without delimiters is flat. -/
theorem Sources.Traced.flat {sources : Sources} {rule : List Char} {state : Reduction}
    (ht : sources.Traced rule state) (hs : state.Linear) {body : List Symbol}
    (hbody : ∀ s ∈ body, s ∈ state.text) (hplain : ∀ s ∈ body, s.closes? = none ∧ s.opens? = none) :
    sources.Flat body where
  plain := hplain
  group index hindex := by
    have href : index ∈ references state.text :=
      List.mem_filterMap.mpr ⟨_, hbody _ hindex, rfl⟩
    obtain ⟨parked, hslot⟩ := (hs.holds_iff index).mpr href
    obtain ⟨tree, u, hsource, hu, -⟩ := ht.cover index parked hslot
    exact ⟨tree, u, hsource, hu⟩

/-- A run that ends at an entry has refused a body of the rule, in which groups are references. -/
theorem exists_body_of_run {rule : List Char} {entry : String}
    (h : (Reduction.start rule).run = .error (.invalidEntry entry)) :
    ∃ (sources : Sources) (body : List Symbol), HasBody rule (sources.expand body) ∧
      sources.Flat body ∧ Entry.ofBody body = .error (.invalidEntry entry) := by
  obtain ⟨last, hsteps, hlast⟩ := Reduction.run_eq_error_iff.mp h
  obtain ⟨sources, htraced⟩ := hsteps.traced (Sources.traced_start rule)
  have hlinear : last.Linear := hsteps.linear (Reduction.linear_start rule)
  rcases hlast with hstep | ⟨hnone, hfinish⟩
  · rcases Reduction.step_error_cases hstep with hscan | ⟨group, hfound, hbuild⟩
    · rcases innermost?_error_cases hscan with ⟨_, he⟩ | ⟨_, _, he⟩ <;> cases he
    · obtain ⟨htext, hvalid⟩ := innermost?_eq_some_iff.mp hfound
      have hrefs := hlinear
      rw [Reduction.Linear, htext, Reduction.references_innermost] at hrefs
      have hrule : rule = sources.expand group.before ++ group.kind.opener ::
          (sources.expand group.body ++ group.kind.closer :: sources.expand group.after) := by
        rw [← htraced.expand_eq, htext, Innermost.text]
        simp [Sources.expand_append, Sources.expandSymbol]
      refine ⟨sources, group.body, .group hrule, htraced.flat hlinear ?_ ?_,
        Group.ofBody_of_build_invalid hrefs hbuild⟩
      · intro s hs
        rw [htext, Innermost.text]
        simp [hs]
      · exact fun s hs => ⟨hvalid.body_closes s hs, hvalid.body_opens s hs⟩
  · have hbuild := (Group.build_trim _ _ _).symm.trans (hlinear.build_of_finish_error hfinish)
    have hrefs : last.slots.Linear ([] ++ references last.text ++ []) := by
      rwa [List.nil_append, List.append_nil]
    refine ⟨sources, last.text, htraced.expand_eq ▸ .whole, ?_,
      Group.ofBody_of_build_invalid hrefs hbuild⟩
    exact htraced.flat hlinear (fun s hs => hs) (Reduction.step_eq_none_iff.mp hnone)

theorem HasBody.subset {rule body : List Char} (h : HasBody rule body) : body ⊆ rule := by
  cases h with
  | whole => exact List.Subset.refl rule
  | group he =>
    rw [he]
    exact fun c hc => List.mem_append_right _
      (List.mem_cons_of_mem _ (List.mem_append_left _ hc))

/-- Every character of the text that an error shows is a dot or one of the rule. -/
theorem eq_dot_or_mem_of_describe {sources : Sources} {body piece : List Symbol} {c : Char}
    (hpiece : piece ∈ body.splitOn (.char ',')) (hc : c ∈ (describe (trim piece)).toList) :
    c = '.' ∨ c ∈ sources.expand body := by
  rw [describe_eq, String.toList_ofList] at hc
  obtain ⟨s, hs, hc⟩ := List.mem_flatMap.mp hc
  have hbody : s ∈ body := Written.mem_of_mem_splitOn hpiece (Written.mem_of_mem_trim hs)
  cases s with
  | char d => exact .inr (List.mem_flatMap.mpr ⟨_, hbody, hc⟩)
  | group index => exact .inl (by simpa [dots] using hc)

/-- A rule that is refused for an entry has this entry between two commas of a body of its own, with
each of its outermost groups shown as dots and without the blanks around it.  It is no key, no group
under a key, and no group.  What is shown are characters of the rule and dots, never an at sign, and
it is the same where references are written into the text with their numbers. -/
theorem invalidEntry_shown {rule entry : String}
    (h : compile rule = .error (.fault rule (.invalidEntry entry))) :
    (∃ body pieces piece shown, HasBody rule.toList body ∧ Pieces body pieces ∧ piece ∈ pieces ∧
      Dotted piece shown ∧ entry = String.ofList (Written.trim shown) ∧
      ∀ part, ¬ EntryText .array part piece) ∧
    (∀ c ∈ entry.toList, c = '.' ∨ isRuleChar c = true) ∧ '@' ∉ entry.toList ∧
    Written.compile rule = some (.error (.fault rule (.invalidEntry entry))) := by
  obtain ⟨hchecked, hrun⟩ := checked_of_fault h
  obtain ⟨sources, body, hhas, hflat, hbody⟩ := exists_body_of_run hrun
  obtain ⟨piece, hpiece, hnone, rfl⟩ := exists_piece_of_ofBody_error hbody
  have hpart := hflat.of_subset fun s hs => Written.mem_of_mem_splitOn hpiece hs
  have hchars : ∀ c ∈ (describe (trim piece)).toList, c = '.' ∨ isRuleChar c = true := by
    intro c hc
    rcases eq_dot_or_mem_of_describe hpiece hc with hdot | hmem
    · exact .inl hdot
    · exact .inr (invalidChars_eq_nil_iff.mp hchecked.chars c (hhas.subset hmem))
  refine ⟨⟨_, _, sources.expand piece, _, hhas, hflat.pieces, List.mem_map_of_mem hpiece,
    hpart.dotted, ?_, ?_⟩, hchars, fun hat => ?_, ?_⟩
  · rw [trim_dots, describe_eq]
  · intro part hentry
    obtain ⟨found, hfound⟩ := hpart.exists_spells hentry
    exact hnone found hfound
  · exact absurd (hchars '@' hat) (by decide)
  · rw [Written.compile_eq_some, h]

/-- An entry of two groups that touch each other and digits of the rule. -/
theorem invalidEntry_shown_digits :
    let rule := "x:[e, 1{a}[b]2 ]"
    compile rule = .error (.fault rule (.invalidEntry "1......2")) ∧
      (∃ body pieces piece shown, HasBody rule.toList body ∧ Pieces body pieces ∧
        piece ∈ pieces ∧ Dotted piece shown ∧
        "1......2" = String.ofList (Written.trim shown) ∧
        ∀ part, ¬ EntryText .array part piece) ∧
      Written.compile rule = some (.error (.fault rule (.invalidEntry "1......2"))) := by
  intro rule
  have hcompile : compile rule = .error (.fault rule (.invalidEntry "1......2")) := by
    decide +kernel
  obtain ⟨hpiece, -, -, hwritten⟩ := invalidEntry_shown hcompile
  exact ⟨hcompile, hpiece, hwritten⟩

end Allowlist.Rule

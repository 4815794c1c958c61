import Allowlist.Proofs.Rule.Compile
import Allowlist.Proofs.Rule.References

/-!
# Proofs.Rule.Reader — a rule read once, from left to right

`Reader` reads a rule with a stack: an opening delimiter pushes, a closing one pops and builds the
group that it closes.  It never looks back and never rewrites the text.  The reduction scans its
text anew for each group, but the first closing delimiter that is left is always the next one that
the reader comes to, and the nearest opener before it is the top of the stack.  So the two build the
same groups in the same order, and stop at the same fault (`compile_eq_readRule`).
-/

namespace Allowlist.Rule

open Allowlist.Rule.Symbol

/-- A group that is still open: what stands before it in its own level, and how it was opened. -/
structure Level where
  before : List Symbol
  kind : GroupKind

/-- The reader somewhere in a rule. -/
structure Reader where
  /-- The groups closed so far, in the order in which they were closed. -/
  groups : List Parked
  /-- The groups that are open, the innermost first. -/
  stack : List Level
  /-- What stands in the innermost level so far. -/
  text : List Symbol

namespace Reader

/-- What the entry stands for; the reader refers to no group that it has not closed. -/
def partOf (groups : List Parked) : Entry → Option String × Parked
  | .key name => (some name, .key)
  | .keyed name index => (some name, groups.getD index .key)
  | .group index => (none, groups.getD index .key)

/-- Checks the entries of a body and builds their group. -/
def build (kind : GroupKind) (body : List Symbol) (groups : List Parked) : Except Fault Parked := do
  let entries ← Entry.ofBody body
  Group.ofParts kind (entries.map (partOf groups))

/-- Closes the innermost group. -/
def close (reader : Reader) (kind : GroupKind) : Except Fault Reader :=
  match reader.stack with
  | [] => .error (.unbalanced kind.closer)
  | level :: stack =>
    if level.kind = kind then do
      let group ← build kind reader.text reader.groups
      return ⟨reader.groups ++ [group], stack, level.before ++ [.group reader.groups.length]⟩
    else .error (.mismatched level.kind.opener kind.closer)

/-- Reads one character. -/
def feed (reader : Reader) (c : Char) : Except Fault Reader :=
  match GroupKind.ofOpener? c, GroupKind.ofCloser? c with
  | some kind, _ => .ok ⟨reader.groups, ⟨reader.text, kind⟩ :: reader.stack, []⟩
  | none, some kind => reader.close kind
  | none, none => .ok ⟨reader.groups, reader.stack, reader.text ++ [.char c]⟩

/-- The shape of the rule, when its end is reached; the leftmost open group is reported first. -/
def finish (reader : Reader) : Except Fault Shape :=
  match reader.stack.getLast? with
  | some level => .error (.unbalanced level.kind.opener)
  | none =>
    match Entry.reference? (trim reader.text) with
    | some index => .ok (reader.groups.getD index .key).shape
    | none => (build .object (trim reader.text) reader.groups).map (·.shape)

end Reader

/-- The shape that the reader finds in a rule, or the first fault that it meets. -/
def readRule (chars : List Char) : Except Fault Shape :=
  chars.foldlM Reader.feed ⟨[], [], []⟩ >>= Reader.finish

namespace Reader

/-! ### A reduction that keeps up with the reader -/

/-- The text of the open levels, with the delimiters that opened them. -/
def outer (stack : List Level) : List Symbol :=
  stack.reverse.flatMap fun level => level.before ++ [.char level.kind.opener]

@[simp] theorem outer_nil : outer [] = [] := rfl

@[simp] theorem outer_cons (level : Level) (stack : List Level) :
    outer (level :: stack) = outer stack ++ level.before ++ [.char level.kind.opener] := by
  simp [outer]

/-- The reduction has built the groups that the reader has closed, and its text is what the reader
keeps of the rule, with the rest of the rule behind. -/
structure Tracks (reader : Reader) (rest : List Char) (state : Reduction) : Prop where
  text_eq : state.text = outer reader.stack ++ reader.text ++ ofChars rest
  closes : ∀ s ∈ outer reader.stack ++ reader.text, s.closes? = none
  opens_before : ∀ level ∈ reader.stack, ∀ s ∈ level.before, s.opens? = none
  opens_text : ∀ s ∈ reader.text, s.opens? = none
  linear : state.Linear
  length_eq : state.slots.length = reader.groups.length
  groups_of_slots : ∀ (i : Nat) (p : Parked),
    state.slots[i]? = some (some p) → reader.groups[i]? = some p

theorem tracks_start (chars : List Char) :
    Tracks ⟨[], [], []⟩ chars (Reduction.start chars) where
  text_eq := rfl
  closes := nofun
  opens_before := nofun
  opens_text := nofun
  linear := Reduction.linear_start chars
  length_eq := rfl
  groups_of_slots := nofun

variable {reader : Reader} {rest : List Char} {state : Reduction} {c : Char}

/-- The reader finds for an entry what the slots hold for it. -/
theorem partOf_eq_of_stands {slots : Slots} {groups : List Parked} {entry : Entry}
    {part : Option String × Parked}
    (hgroups : ∀ (i : Nat) (p : Parked), slots[i]? = some (some p) → groups[i]? = some p)
    (h : slots.Stands entry part) : partOf groups entry = part := by
  cases h with
  | key => rfl
  | keyed hslot => rw [partOf, List.getD_eq_getElem?_getD, hgroups _ _ hslot, Option.getD_some]
  | group hslot => rw [partOf, List.getD_eq_getElem?_getD, hgroups _ _ hslot, Option.getD_some]

theorem map_partOf_eq {slots : Slots} {groups : List Parked} {entries : List Entry}
    {parts : List (Option String × Parked)}
    (hgroups : ∀ (i : Nat) (p : Parked), slots[i]? = some (some p) → groups[i]? = some p)
    (h : List.Forall₂ slots.Stands entries parts) : entries.map (partOf groups) = parts := by
  induction h with
  | nil => rfl
  | cons hfirst _ ih => rw [List.map_cons, partOf_eq_of_stands hgroups hfirst, ih]

/-- The two build the same group from a body, or refuse it for the same fault. -/
theorem Tracks.build_eq (h : Tracks reader rest state) (kind : GroupKind) {body : List Symbol}
    {front back : List Nat}
    (hrefs : references state.text = front ++ references body ++ back) :
    (Group.build kind body state.slots).map Prod.fst = build kind body reader.groups := by
  have hlinear : state.slots.Linear (front ++ references body ++ back) := hrefs ▸ h.linear
  rcases Group.build_cases kind hlinear with
    ⟨fault, hbody, hbuild⟩ | ⟨entries, parts, slots, hbody, hread, -, hbuild⟩
  · rw [hbuild, build, hbody]
    rfl
  · rw [hbuild, build, hbody]
    change _ = Group.ofParts kind (entries.map (partOf reader.groups))
    rw [map_partOf_eq h.groups_of_slots hread.stands]
    cases Group.ofParts kind parts <;> rfl

/-- An opening delimiter changes what is open, not the text. -/
theorem Tracks.push {kind : GroupKind} (h : Tracks reader (c :: rest) state)
    (hc : GroupKind.ofOpener? c = some kind) :
    Tracks ⟨reader.groups, ⟨reader.text, kind⟩ :: reader.stack, []⟩ rest state := by
  obtain rfl : c = kind.opener := Symbol.char.inj (eq_char_opener (s := .char c) hc)
  refine ⟨?_, ?_, ?_, nofun, h.linear, h.length_eq, h.groups_of_slots⟩
  · rw [h.text_eq]
    simp
  · intro s hs
    simp only [outer_cons, List.append_nil, List.mem_append, List.mem_singleton] at hs
    rcases hs with hs | rfl
    · exact h.closes s (List.mem_append.mpr hs)
    · exact closes?_char_opener kind
  · intro level hlevel
    rcases List.mem_cons.mp hlevel with rfl | hlevel
    · exact h.opens_text
    · exact h.opens_before level hlevel

/-- Any other character is read into the innermost level. -/
theorem Tracks.char (h : Tracks reader (c :: rest) state) (hopen : GroupKind.ofOpener? c = none)
    (hclose : GroupKind.ofCloser? c = none) :
    Tracks ⟨reader.groups, reader.stack, reader.text ++ [.char c]⟩ rest state := by
  refine ⟨?_, ?_, h.opens_before, ?_, h.linear, h.length_eq, h.groups_of_slots⟩
  · rw [h.text_eq]
    simp
  · intro s hs
    rw [← List.append_assoc] at hs
    rcases List.mem_append.mp hs with hs | hs
    · exact h.closes s hs
    · rw [List.mem_singleton.mp hs]
      exact hclose
  · intro s hs
    rcases List.mem_append.mp hs with hs | hs
    · exact h.opens_text s hs
    · rw [List.mem_singleton.mp hs]
      exact hopen

/-- The first closing delimiter of the text is the one that the reader comes to. -/
theorem Tracks.first?_eq {kind : GroupKind} (h : Tracks reader (c :: rest) state)
    (hc : GroupKind.ofCloser? c = some kind) :
    Cut.first? closes? state.text =
      some (outer reader.stack ++ reader.text, kind, ofChars rest) := by
  rw [h.text_eq, ofChars_cons]
  exact Cut.first?_append_cons h.closes hc

/-- A closing delimiter without an open group, or with one of the other kind, stops both. -/
theorem Tracks.step_error {kind : GroupKind} {fault : Fault}
    (h : Tracks reader (c :: rest) state) (hc : GroupKind.ofCloser? c = some kind)
    (hstack : (reader.stack = [] ∧ fault = .unbalanced kind.closer) ∨
      ∃ level stack, reader.stack = level :: stack ∧ level.kind ≠ kind ∧
        fault = .mismatched level.kind.opener kind.closer) :
    state.step = .error fault := by
  have hscan : innermost? state.text = .error fault := by
    rw [innermost?, h.first?_eq hc]
    rcases hstack with ⟨hnil, rfl⟩ | ⟨level, stack, hcons, hne, rfl⟩
    · rw [hnil, outer_nil, List.nil_append]
      simp only [Cut.last?_eq_none h.opens_text]
    · rw [hcons, outer_cons, List.append_assoc, List.singleton_append]
      simp only [Cut.last?_append_cons (opens?_char_opener level.kind) h.opens_text, if_neg hne]
  rw [Reduction.step, hscan]
  rfl

/-- The group that the reader closes is the innermost one of the text. -/
theorem Tracks.innermost?_eq {kind : GroupKind} {level : Level} {stack : List Level}
    (h : Tracks reader (c :: rest) state) (hc : GroupKind.ofCloser? c = some kind)
    (hstack : reader.stack = level :: stack) (hkind : level.kind = kind) :
    innermost? state.text =
      .ok (some ⟨outer stack ++ level.before, kind, reader.text, ofChars rest⟩) := by
  rw [innermost?, h.first?_eq hc, hstack, outer_cons, List.append_assoc, List.singleton_append]
  simp only [Cut.last?_append_cons (opens?_char_opener level.kind) h.opens_text, if_pos hkind]

/-- Closing a group is a step of the reduction. -/
theorem Tracks.close {kind : GroupKind} {level : Level} {stack : List Level} {group : Parked}
    (h : Tracks reader (c :: rest) state) (hc : GroupKind.ofCloser? c = some kind)
    (hstack : reader.stack = level :: stack) (hkind : level.kind = kind)
    (hbuild : build kind reader.text reader.groups = .ok group) :
    ∃ next, state.Next next ∧
      Tracks ⟨reader.groups ++ [group], stack,
        level.before ++ [.group reader.groups.length]⟩ rest next := by
  have hfound := h.innermost?_eq hc hstack hkind
  obtain ⟨htext, hvalid⟩ := innermost?_eq_some_iff.mp hfound
  have hrefs := congrArg references htext
  rw [Reduction.references_innermost] at hrefs
  have hbuilt := (h.build_eq kind hrefs).trans hbuild
  obtain ⟨⟨parked, slots⟩, hparked, rfl⟩ := Outcome.map_eq_ok_iff.mp hbuilt
  have hlinear := h.linear
  rw [Reduction.Linear, hrefs] at hlinear
  obtain ⟨entries, parts, -, hread, -, -⟩ := Group.exists_parts_of_build hlinear hparked
  have hlength : slots.length = reader.groups.length := hread.length_eq.trans h.length_eq
  have hnext : state.Next ⟨_, slots ++ [some parked]⟩ :=
    Reduction.next_iff.mpr ⟨_, parked, slots, htext, hvalid, hparked, rfl⟩
  refine ⟨_, hnext, ?_, ?_, ?_, ?_, hnext.linear h.linear, ?_, ?_⟩
  · simp only [Innermost.replace, hlength, List.append_assoc, List.cons_append, List.nil_append]
  · intro s hs
    rw [← List.append_assoc] at hs
    rcases List.mem_append.mp hs with hs | hs
    · exact hvalid.before s hs
    · rw [List.mem_singleton.mp hs]
      rfl
  · intro l hl
    exact h.opens_before l (hstack ▸ List.mem_cons_of_mem _ hl)
  · intro s hs
    rcases List.mem_append.mp hs with hs | hs
    · exact h.opens_before level (hstack ▸ List.mem_cons_self) s hs
    · rw [List.mem_singleton.mp hs]
      rfl
  · simp [hlength]
  · intro i p hp
    rcases Slots.getElem?_park hp with hp | ⟨rfl, rfl⟩
    · have hi := h.groups_of_slots i p (hread.mono hp)
      rwa [List.getElem?_append_left (List.getElem?_eq_some_iff.mp hi).1]
    · simp [hlength]

/-- The reader closes a group as the reduction makes a step, or both stop at one fault. -/
theorem Tracks.close_cases {kind : GroupKind} (h : Tracks reader (c :: rest) state)
    (hc : GroupKind.ofCloser? c = some kind) :
    (∃ fault, reader.close kind = .error fault ∧ state.step = .error fault) ∨
      ∃ reader' next, reader.close kind = .ok reader' ∧ state.Next next ∧
        Tracks reader' rest next := by
  cases hstack : reader.stack with
  | nil =>
    refine .inl ⟨.unbalanced kind.closer, ?_, h.step_error hc (.inl ⟨hstack, rfl⟩)⟩
    simp only [Reader.close, hstack]
  | cons level stack =>
    by_cases hkind : level.kind = kind
    · have hclose : reader.close kind = (build kind reader.text reader.groups).map fun group =>
          ⟨reader.groups ++ [group], stack, level.before ++ [.group reader.groups.length]⟩ := by
        simp only [Reader.close, hstack, if_pos hkind]
        cases build kind reader.text reader.groups <;> rfl
      cases hbuild : build kind reader.text reader.groups with
      | error fault =>
        have hfound := h.innermost?_eq hc hstack hkind
        have hrefs := congrArg references (innermost?_eq_some_iff.mp hfound).1
        rw [Reduction.references_innermost] at hrefs
        have herror := (h.build_eq kind hrefs).trans hbuild
        rw [Outcome.map_eq_error_iff] at herror
        refine .inl ⟨fault, by rw [hclose, hbuild]; rfl, ?_⟩
        simp only [Reduction.step, hfound, bind, Except.bind, herror]
      | ok group =>
        obtain ⟨next, hnext, htracks⟩ := h.close hc hstack hkind hbuild
        exact .inr ⟨_, next, by rw [hclose, hbuild]; rfl, hnext, htracks⟩
    · refine .inl ⟨.mismatched level.kind.opener kind.closer, ?_,
        h.step_error hc (.inr ⟨level, stack, hstack, hkind, rfl⟩)⟩
      simp only [Reader.close, hstack, if_neg hkind]

theorem outer_concat (stack : List Level) (level : Level) :
    outer (stack ++ [level]) = level.before ++ .char level.kind.opener :: outer stack := by
  simp [outer]

/-- At the end of the rule the first delimiter that is left opened the outermost group of the
stack. -/
theorem Tracks.step_of_open {level : Level} (h : Tracks reader [] state)
    (hlast : reader.stack.getLast? = some level) :
    state.step = .error (.unbalanced level.kind.opener) := by
  obtain ⟨stack, hstack⟩ := List.getLast?_eq_some_iff.mp hlast
  have htext : state.text = outer reader.stack ++ reader.text := by
    rw [h.text_eq, ofChars_nil, List.append_nil]
  have hfirst : Cut.first? closes? state.text = none := by
    rw [htext]
    exact Cut.first?_eq_none_iff.mpr h.closes
  have hbefore : level.before.findSome? opens? = none :=
    List.findSome?_eq_none_iff.mpr (h.opens_before level (hstack ▸ by simp))
  have hopen : state.text.findSome? opens? = some level.kind := by
    rw [htext, hstack, outer_concat, List.append_assoc, List.findSome?_append, hbefore,
      List.cons_append, List.findSome?_cons, opens?_char_opener]
    rfl
  have hscan : innermost? state.text = .error (.unbalanced level.kind.opener) := by
    simp only [innermost?, hfirst, hopen]
  rw [Reduction.step, hscan]
  rfl

/-- Without open groups the reader ends with the text that the reduction ends with. -/
theorem Tracks.finish_of_closed (h : Tracks reader [] state) (hstack : reader.stack = []) :
    state.step = .ok none ∧ reader.finish = state.finish := by
  have htext : state.text = reader.text := by
    rw [h.text_eq, hstack, outer_nil, List.nil_append, ofChars_nil, List.append_nil]
  refine ⟨Reduction.step_eq_none_iff.mpr fun s hs => ?_, ?_⟩
  · rw [htext] at hs
    exact ⟨h.closes s (List.mem_append_right _ hs), h.opens_text s hs⟩
  · have hnone : reader.stack.getLast? = none := by rw [hstack]; rfl
    by_cases href : ∃ index, trim reader.text = [.group index]
    · obtain ⟨index, href⟩ := href
      obtain ⟨group, hgroup, hfinish⟩ := h.linear.exists_finish_of_reference (htext ▸ href)
      rw [hfinish]
      simp only [finish, hnone, reference?_eq_some_iff.mpr href, List.getD_eq_getElem?_getD,
        h.groups_of_slots index group hgroup, Option.getD_some]
    · have hnot : ∀ index, trim state.text ≠ [.group index] :=
        fun index he => href ⟨index, htext ▸ he⟩
      have hrefs : references state.text = [] ++ references (trim state.text) ++ [] := by
        rw [references_trim, List.nil_append, List.append_nil]
      have hnoref : Entry.reference? (trim state.text) = none :=
        Option.eq_none_iff_forall_ne_some.mpr fun index he =>
          hnot index (reference?_eq_some_iff.mp he)
      rw [Reduction.finish_of_entries hnot]
      simp only [finish, hnone, ← htext, hnoref, ← h.build_eq .object hrefs]
      cases Group.build .object (trim state.text) state.slots <;> rfl

theorem Tracks.finish_eq (h : Tracks reader [] state) : reader.finish = state.run := by
  cases hlast : reader.stack.getLast? with
  | some level =>
    rw [Reduction.run_of_error (h.step_of_open hlast)]
    simp only [finish, hlast]
  | none =>
    obtain ⟨hstep, hfinish⟩ := h.finish_of_closed (List.getLast?_eq_none_iff.mp hlast)
    rw [Reduction.run_of_none hstep, hfinish]

/-- From where the reader is, it finds what the reduction finds from where it is. -/
theorem Tracks.read_eq (h : Tracks reader rest state) :
    rest.foldlM feed reader >>= finish = state.run := by
  induction rest generalizing reader state with
  | nil => exact h.finish_eq
  | cons c rest ih =>
    rw [List.foldlM_cons]
    cases hopen : GroupKind.ofOpener? c with
    | some kind =>
      have hfeed : reader.feed c =
          .ok ⟨reader.groups, ⟨reader.text, kind⟩ :: reader.stack, []⟩ := by
        simp only [feed, hopen]
      rw [hfeed]
      exact ih (h.push hopen)
    | none =>
      cases hclose : GroupKind.ofCloser? c with
      | none =>
        have hfeed : reader.feed c =
            .ok ⟨reader.groups, reader.stack, reader.text ++ [.char c]⟩ := by
          simp only [feed, hopen, hclose]
        rw [hfeed]
        exact ih (h.char hopen hclose)
      | some kind =>
        have hfeed : reader.feed c = reader.close kind := by
          simp only [feed, hopen, hclose]
        rw [hfeed]
        rcases h.close_cases hclose with
          ⟨fault, hfault, hstep⟩ | ⟨reader', next, hnext, hstep, htracks⟩
        · rw [hfault, Reduction.run_of_error hstep]
          rfl
        · rw [hnext, Reduction.run_of_next hstep]
          exact ih htracks

end Reader

/-- **The reduction fails where a reader with a stack fails.**  A rule that passes the checks of its
length and its characters compiles to the shape that the reader finds, or is refused for the first
fault that the reader meets. -/
theorem compile_eq_readRule {rule : String} (h : Checked rule) :
    compile rule = (readRule rule.toList).mapError (.fault rule) := by
  rw [h.compile_eq, readRule, (Reader.tracks_start rule.toList).read_eq]

/-- The reader meets the crossed group before the group that is never closed. -/
theorem compile_eq_readRule_crossed :
    Checked "k:[a, x:\x7bb]" ∧
      compile "k:[a, x:\x7bb]" = .error (.fault "k:[a, x:\x7bb]" (.mismatched '\x7b' ']')) := by
  have h : Checked "k:[a, x:\x7bb]" :=
    ⟨by decide, by decide, fun hblank => absurd (hblank 'k' (by decide)) (by decide)⟩
  refine ⟨h, ?_⟩
  rw [compile_eq_readRule h]
  decide

end Allowlist.Rule

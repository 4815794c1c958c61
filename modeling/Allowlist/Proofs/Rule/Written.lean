import Allowlist.Proofs.Bytes
import Allowlist.Proofs.Rule.References

/-!
# Proofs.Rule.Written — a reduction that writes its references into the text

Here the working text is plain text.  A reference is written as the number of its group between two
at signs and read back from the text in which it stands, groups are found by byte offsets, and the
text between two offsets is overwritten in place:

    key:{x:[y:{a, b}]}
    key:{x:[y:@0@]}
    key:{x:@1@}
    key:@2@

Nothing about such a text says which part of it is a reference.  `none` stands for a crash, on an
offset that is no place to cut the text.
-/

namespace Allowlist.Rule

open Bytes

/-! ### References and entries in plain text -/

namespace Written

/-- The reference to the group at `index`. -/
def reference (index : Nat) : List Char := '@' :: (Nat.toDigits 10 index ++ ['@'])

/-- A reference is read for the numbers of 64 bits. -/
def indexBound : Nat := UInt64.size

/-- The group that the text refers to, if it is one reference and nothing else. -/
def reference? : List Char → Option Nat
  | '@' :: rest =>
    if rest.getLast? = some '@' ∧ rest.dropLast ≠ [] ∧ rest.dropLast.all Char.isDigit ∧
        Nat.ofDigitChars 10 rest.dropLast 0 < indexBound then
      some (Nat.ofDigitChars 10 rest.dropLast 0)
    else none
  | _ => none

/-- The function that finds the at sign of a reference. -/
def at? (c : Char) : Option Unit := if c = '@' then some () else none

/-- The text as an error shows it, every reference as three dots. -/
def describe? (text : List Char) : Option (List Char) :=
  match first? at? text with
  | none => some text
  | some (start, _) =>
    match cut? text start, _hafter : cut? text (start + 1) with
    | some (before, opened), some (_, after) =>
      match first? at? after with
      | none => some (before ++ opened)
      | some (stop, _) =>
        match _hrest : cut? after (stop + 1) with
        | none => none
        | some (_, rest) => (describe? rest).map (before ++ ['.', '.', '.'] ++ ·)
    | _, _ => none
termination_by text.length
decreasing_by exact (length_lt_of_cut? _hrest).trans (length_lt_of_cut? _hafter)

/-- The text without the blanks at both ends. -/
def trim (text : List Char) : List Char :=
  ((text.dropWhile (· == ' ')).reverse.dropWhile (· == ' ')).reverse

/-- The entry between two commas, or the text that is none. -/
def entry (text : List Char) : Except (List Char) Entry :=
  match Cut.first? (fun c => if c = ':' then some () else none) (trim text) with
  | some (label, _, target) =>
    match Entry.keyName? (trim label), reference? (trim target) with
    | some name, some index => .ok (.keyed name index)
    | _, _ => .error (trim text)
  | none =>
    match reference? (trim text), Entry.keyName? (trim text) with
    | some index, _ => .ok (.group index)
    | none, some name => .ok (.key name)
    | none, none => .error (trim text)

/-- The entries of a group body, or the first text that is none. -/
def entries (body : List Char) : Except (List Char) (List Entry) :=
  if trim body = [] then .ok [] else (body.splitOn ',').mapM entry

end Written

/-! ### One step in plain text -/

/-- The group of the entries, and the slots that it leaves. -/
def Group.ofEntries (kind : GroupKind) (entries : List Entry) (slots : Slots) :
    Except Fault (Parked × Slots) :=
  match kind with
  | .object => do
    let state ← entries.foldlM addObjectEntry ⟨slots, [], 0⟩
    close (.object state.parts) (state.depth + 1) state.slots
  | .array => do
    let state ← entries.foldlM addArrayEntry ⟨slots, [], 0⟩
    close (.array state.parts) (state.depth + 1) state.slots

/-- The working text as it is written, and the parked groups. -/
structure Written where
  text : List Char
  slots : Slots

namespace Written

/-- The start of the reduction of a rule. -/
def start (rule : List Char) : Written := ⟨rule, []⟩

/-- The group that a body denotes, and the slots that it leaves. -/
def build (kind : GroupKind) (body : List Char) (slots : Slots) :
    Option (Except Fault (Parked × Slots)) :=
  match entries body with
  | .error text => (describe? text).map fun shown => .error (.invalidEntry (String.ofList shown))
  | .ok entries => some (Group.ofEntries kind entries slots)

/-- Where a group without groups inside stands: the offsets of its two delimiters. -/
structure Span where
  kind : GroupKind
  opening : Nat
  closing : Nat

/-- The group that the first closing delimiter and the nearest opening delimiter before it bound. -/
def innermost? (text : List Char) : Option (Except Fault (Option Span)) :=
  match first? GroupKind.ofCloser? text with
  | none =>
    match text.find? fun c => (GroupKind.ofOpener? c).isSome with
    | some c => some (.error (.unbalanced c))
    | none => some (.ok none)
  | some (closing, closed) => do
    let (front, _) ← cut? text closing
    match last? GroupKind.ofOpener? front with
    | none => some (.error (.unbalanced closed.closer))
    | some (opening, opened) =>
      if opened = closed then some (.ok (some ⟨closed, opening, closing⟩))
      else some (.error (.mismatched opened.opener closed.closer))

/-- Builds the group between two offsets and writes a reference over it. -/
def reduceAt (state : Written) (span : Span) : Option (Except Fault (Option Written)) := do
  let body ← slice? state.text (span.opening + 1) span.closing
  match ← build span.kind body state.slots with
  | .error fault => some (.error fault)
  | .ok (parked, slots) =>
    let text ← splice? state.text span.opening (span.closing + 1) (reference slots.length)
    some (.ok (some ⟨text, slots ++ [some parked]⟩))

/-- Builds one innermost group; `none` inside when there is none left. -/
def step (state : Written) : Option (Except Fault (Option Written)) := do
  match ← innermost? state.text with
  | .error fault => some (.error fault)
  | .ok none => some (.ok none)
  | .ok (some span) => state.reduceAt span

/-- The shape that a text without groups denotes. -/
def finish (state : Written) : Option (Except Fault Shape) :=
  match reference? (trim state.text) with
  | some index => some ((state.slots.take index).map fun built => built.1.shape)
  | none =>
    (build .object (trim state.text) state.slots).map (·.map fun built => built.1.shape)

/-! ### The reduction ends -/

/-- The number of closing delimiters. -/
def closers (text : List Char) : Nat := text.countP fun c => (GroupKind.ofCloser? c).isSome

/-- The number of delimiters of both kinds. -/
def delimiters (text : List Char) : Nat :=
  text.countP fun c => (GroupKind.ofOpener? c).isSome || (GroupKind.ofCloser? c).isSome

/-- The characters of a reference are at signs and digits. -/
theorem eq_at_or_isDigit_of_mem {index : Nat} {c : Char} (hc : c ∈ reference index) :
    c = '@' ∨ c.isDigit = true := by
  rw [reference, List.mem_cons, List.mem_append, List.mem_singleton] at hc
  rcases hc with hc | hc | hc
  · exact .inl hc
  · exact .inr (Nat.isDigit_of_mem_toDigits (by omega) (le_refl 10) hc)
  · exact .inl hc

theorem ne_of_mem_reference {index : Nat} {c d : Char} (hc : c ∈ reference index) (hat : d ≠ '@')
    (hdigit : d.isDigit = false) : c ≠ d := by
  rintro rfl
  rcases eq_at_or_isDigit_of_mem hc with hc | hc
  · exact hat hc
  · rw [hdigit] at hc
    cases hc

theorem ofCloser?_of_mem_reference {index : Nat} {c : Char} (hc : c ∈ reference index) :
    GroupKind.ofCloser? c = none := by
  rw [GroupKind.ofCloser?, if_neg (ne_of_mem_reference hc (by decide) (by decide)),
    if_neg (ne_of_mem_reference hc (by decide) (by decide))]

theorem ofOpener?_of_mem_reference {index : Nat} {c : Char} (hc : c ∈ reference index) :
    GroupKind.ofOpener? c = none := by
  rw [GroupKind.ofOpener?, if_neg (ne_of_mem_reference hc (by decide) (by decide)),
    if_neg (ne_of_mem_reference hc (by decide) (by decide))]

theorem utf8Size_of_ofCloser? {c : Char} {kind : GroupKind}
    (hc : GroupKind.ofCloser? c = some kind) : c.utf8Size = 1 := by
  cases Symbol.char.inj (Symbol.eq_char_closer (s := .char c) hc)
  cases kind <;> decide

theorem utf8Size_of_ofOpener? {c : Char} {kind : GroupKind}
    (hc : GroupKind.ofOpener? c = some kind) : c.utf8Size = 1 := by
  cases Symbol.char.inj (Symbol.eq_char_opener (s := .char c) hc)
  cases kind <;> decide

/-- The span of a group that is found is that of its delimiters in the text. -/
theorem exists_span_of_innermost? {text : List Char} {span : Span}
    (h : innermost? text = some (.ok (some span))) :
    ∃ before opener body closer after,
      text = before ++ opener :: body ++ closer :: after ∧
        GroupKind.ofOpener? opener = some span.kind ∧ GroupKind.ofCloser? closer = some span.kind ∧
        span.opening = size before ∧ span.closing = size (before ++ opener :: body) := by
  unfold innermost? at h
  cases hfirst : Cut.first? GroupKind.ofCloser? text with
  | none =>
    simp only [first?, hfirst, Option.map_none] at h
    split at h <;> cases h
  | some found =>
    obtain ⟨front, closed, after⟩ := found
    obtain ⟨closer, rfl, hcloser, -⟩ := Cut.eq_of_first? hfirst
    simp only [first?, hfirst, Option.map_some, cut?_append, Option.bind_eq_bind,
      Option.bind_some] at h
    cases hlast : Cut.last? GroupKind.ofOpener? front with
    | none =>
      simp only [last?, hlast, Option.map_none] at h
      cases h
    | some found =>
      obtain ⟨before, opened, body⟩ := found
      obtain ⟨opener, rfl, hopener, -⟩ := Cut.eq_of_last? hlast
      simp only [last?, hlast, Option.map_some] at h
      split at h
      · next hkind =>
        cases h
        exact ⟨before, opener, body, closer, after, rfl, hkind ▸ hopener, hcloser, rfl, rfl⟩
      · cases h

/-- At the offsets of two delimiters the text can be read and written. -/
theorem reduceAt_eq (before body after : List Char) {opener closer : Char} (slots : Slots)
    (kind : GroupKind) (hopener : opener.utf8Size = 1) (hcloser : closer.utf8Size = 1) :
    reduceAt ⟨before ++ opener :: body ++ closer :: after, slots⟩
        ⟨kind, size before, size (before ++ opener :: body)⟩ =
      (build kind body slots).map fun built =>
        built.map fun (parked, slots) =>
          some ⟨before ++ reference slots.length ++ after, slots ++ [some parked]⟩ := by
  have hbody : slice? (before ++ opener :: body ++ closer :: after) (size before + 1)
      (size (before ++ opener :: body)) = some body := by
    have h := slice?_append (before ++ [opener]) body (closer :: after)
    simpa [hopener, Nat.add_assoc] using h
  have htext : ∀ new, splice? (before ++ opener :: body ++ closer :: after) (size before)
      (size (before ++ opener :: body) + 1) new = some (before ++ new ++ after) := by
    intro new
    have h := splice?_append before (opener :: body ++ [closer]) after new
    simpa [hcloser, Nat.add_assoc] using h
  simp only [reduceAt, hbody, htext, Option.bind_eq_bind, Option.bind_some]
  cases build kind body slots with
  | none => rfl
  | some built => cases built <;> rfl

/-- A step takes a group out of the text and writes a reference in its place. -/
theorem exists_text_of_step {state next : Written} (h : state.step = some (.ok (some next))) :
    ∃ before opener body closer after kind index,
      state.text = before ++ opener :: body ++ closer :: after ∧
        GroupKind.ofOpener? opener = some kind ∧ GroupKind.ofCloser? closer = some kind ∧
        next.text = before ++ reference index ++ after := by
  unfold step at h
  cases hfound : innermost? state.text with
  | none =>
    rw [hfound] at h
    cases h
  | some found =>
    rw [hfound] at h
    rcases found with fault | (_ | span)
    · cases h
    · cases h
    · obtain ⟨before, opener, body, closer, after, htext, hopener, hcloser, hopening, hclosing⟩ :=
        exists_span_of_innermost? hfound
      obtain ⟨text, slots⟩ := state
      obtain ⟨kind, opening, closing⟩ := span
      subst htext hopening hclosing
      have hreduce := reduceAt_eq before body after slots kind (utf8Size_of_ofOpener? hopener)
        (utf8Size_of_ofCloser? hcloser)
      have hnext := hreduce.symm.trans h
      obtain ⟨built, -, hbuilt⟩ := Option.map_eq_some_iff.mp hnext
      obtain ⟨⟨parked, last⟩, -, hlast⟩ := Outcome.map_eq_ok_iff.mp hbuilt
      cases hlast
      exact ⟨before, opener, body, closer, after, kind, last.length, rfl, hopener, hcloser, rfl⟩

theorem closers_lt_of_step {state next : Written} (h : state.step = some (.ok (some next))) :
    closers next.text < closers state.text := by
  obtain ⟨before, opener, body, closer, after, kind, index, htext, -, hcloser, hnext⟩ :=
    exists_text_of_step h
  have hreference : closers (reference index) = 0 := List.countP_eq_zero.mpr fun c hc => by
    simp [ofCloser?_of_mem_reference hc]
  rw [closers] at hreference
  simp only [htext, hnext, closers, List.countP_append, List.countP_cons, hcloser, hreference,
    Option.isSome_some, if_true]
  omega

/-- The shape that the reduction ends in. -/
def run (state : Written) : Option (Except Fault Shape) :=
  match _h : state.step with
  | none => none
  | some (.error fault) => some (.error fault)
  | some (.ok none) => state.finish
  | some (.ok (some next)) => next.run
termination_by closers state.text
decreasing_by exact closers_lt_of_step _h

/-- The shape that a rule denotes. -/
def compile (rule : String) : Option (Except Error Shape) :=
  if rule.utf8ByteSize > maxLength then some (.error (.tooLong rule.utf8ByteSize))
  else if invalidChars rule ≠ [] then some (.error (.invalidChars rule (invalidChars rule)))
  else if trim rule.toList = [] then some (.error .emptyRule)
  else (start rule.toList).run.map (·.mapError (.fault rule))

/-- The states that the reduction of a rule comes to, with the number of steps to each. -/
inductive Reached (rule : List Char) : Nat → Written → Prop
  | start : Reached rule 0 (start rule)
  | next {n : Nat} {state next : Written} :
      Reached rule n state → state.step = some (.ok (some next)) → Reached rule (n + 1) next

end Written

end Allowlist.Rule

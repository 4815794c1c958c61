import Allowlist.Proofs.Rule.Compile
import Allowlist.Proofs.Rule.Unambiguous
import Allowlist.Proofs.Rule.Written
import Mathlib.Data.String.Basic

/-!
# Proofs.Rule.Legible — written references are read back

`write` spells a working text out.  What the plain text machine looks for, it finds where the
symbols have it: its searches, cuts and trims cannot end inside a reference, because at signs and
digits are not what they look for.  And it reads a number between at signs as a reference only where
one was written, because no rule may hold an at sign.
-/

namespace Allowlist.Rule

open Allowlist.Bytes Allowlist.Rule.Symbol

/-- The symbol as it is written. -/
def Symbol.write : Symbol → List Char
  | .char c => [c]
  | .group index => Written.reference index

/-- The symbol can be told from what is written around it, and its number can be read. -/
def Symbol.Clear : Symbol → Prop
  | .char c => c ≠ '@'
  | .group index => index < Written.indexBound

namespace Written

/-- The working text as it is written. -/
def write (text : List Symbol) : List Char := text.flatMap Symbol.write

@[simp] theorem write_nil : write [] = [] := rfl

@[simp] theorem write_char (c : Char) (text : List Symbol) :
    write (.char c :: text) = c :: write text := rfl

@[simp] theorem write_group (index : Nat) (text : List Symbol) :
    write (.group index :: text) = reference index ++ write text := rfl

@[simp] theorem write_append (text more : List Symbol) :
    write (text ++ more) = write text ++ write more :=
  List.flatMap_append

@[simp] theorem write_ofChars (chars : List Char) : write (ofChars chars) = chars := by
  induction chars with
  | nil => rfl
  | cons c chars ih => rw [ofChars_cons, write_char, ih]

/-! ### Searches -/

section Search

variable {β : Type} {f : Char → Option β} {g : Symbol → Option β}

/-- The two look for the same characters, and for none that a reference is written with. -/
structure Finds (f : Char → Option β) (g : Symbol → Option β) : Prop where
  char : ∀ c, g (.char c) = f c
  group : ∀ index, g (.group index) = none
  reference : ∀ index, ∀ c ∈ reference index, f c = none

theorem finds_closer : Finds GroupKind.ofCloser? closes? :=
  ⟨fun _ => rfl, fun _ => rfl, fun _ _ => ofCloser?_of_mem_reference⟩

theorem finds_opener : Finds GroupKind.ofOpener? opens? :=
  ⟨fun _ => rfl, fun _ => rfl, fun _ _ => ofOpener?_of_mem_reference⟩

theorem finds_colon : Finds (fun c => if c = ':' then some () else none) colon? := by
  refine ⟨fun c => ?_, fun _ => rfl, fun _ c hc => ?_⟩
  · simp only [colon?, Symbol.char.injEq]
  · exact if_neg (ne_of_mem_reference hc (by decide) (by decide))

/-- The first answer in what is written is the first answer in the working text. -/
theorem Finds.first? (h : Finds f g) (text : List Symbol) :
    Cut.first? f (write text) =
      (Cut.first? g text).map fun (front, b, back) => (write front, b, write back) := by
  induction text with
  | nil => rfl
  | cons s text ih =>
    cases s with
    | char c =>
      rw [write_char, Cut.first?, Cut.first?, h.char, ih]
      cases f c <;> cases Cut.first? g text <;> rfl
    | group index =>
      rw [write_group, Cut.first?_append_of_none (h.reference index), Cut.first?, h.group, ih]
      cases Cut.first? g text <;> rfl

/-- The last answer in what is written is the last answer in the working text. -/
theorem Finds.last? (h : Finds f g) (text : List Symbol) :
    Cut.last? f (write text) =
      (Cut.last? g text).map fun (front, b, back) => (write front, b, write back) := by
  induction text with
  | nil => rfl
  | cons s text ih =>
    cases s with
    | char c =>
      rw [write_char, Cut.last?, Cut.last?, h.char, ih]
      cases f c <;> cases Cut.last? g text <;> rfl
    | group index =>
      rw [write_group, Cut.last?_append_of_none (h.reference index), Cut.last?, h.group, ih]
      cases Cut.last? g text <;> rfl

end Search

/-! ### Blanks and commas -/

section Spelling

variable {spell : Symbol → List Char}

/-- Blanks are dropped from what is spelled as they are from the working text, if references are
spelled without blanks. -/
theorem dropWhile_flatMap (hchar : ∀ c, spell (.char c) = [c])
    (hgroup : ∀ index, spell (.group index) ≠ [] ∧ ' ' ∉ spell (.group index))
    (text : List Symbol) : (text.flatMap spell).dropWhile (· == ' ') =
      (text.dropWhile (· == .char ' ')).flatMap spell := by
  induction text with
  | nil => rfl
  | cons s text ih =>
    cases s with
    | char c =>
      rw [List.flatMap_cons, hchar, List.singleton_append, List.dropWhile_cons, List.dropWhile_cons]
      by_cases hc : c = ' '
      · simp [hc, ih]
      · simp [hc, hchar]
    | group index =>
      obtain ⟨hne, hblank⟩ := hgroup index
      obtain ⟨c, rest, hspell⟩ := List.exists_cons_of_ne_nil hne
      have hc : c ≠ ' ' := fun he => hblank (by simp [hspell, he])
      rw [List.flatMap_cons, hspell, List.dropWhile_cons_of_neg (by simp), List.cons_append,
        List.dropWhile_cons_of_neg (by simpa using hc), List.flatMap_cons, hspell,
        List.cons_append]

theorem trim_flatMap (hchar : ∀ c, spell (.char c) = [c])
    (hgroup : ∀ index, spell (.group index) ≠ [] ∧ ' ' ∉ spell (.group index))
    (text : List Symbol) : trim (text.flatMap spell) = (Symbol.trim text).flatMap spell := by
  have hback := @dropWhile_flatMap (List.reverse ∘ spell) (fun c => by simp [hchar])
    (fun index => by simpa using hgroup index)
  rw [trim, dropWhile_flatMap hchar hgroup, List.reverse_flatMap, hback, List.reverse_flatMap,
    Symbol.trim]
  congr 1
  funext s
  exact List.reverse_reverse _

end Spelling

theorem trim_write (text : List Symbol) : trim (write text) = write (Symbol.trim text) :=
  trim_flatMap (fun _ => rfl) (fun _ => ⟨List.cons_ne_nil _ _, fun hblank =>
    ne_of_mem_reference hblank (by decide) (by decide) rfl⟩) text

theorem write_eq_nil_iff {text : List Symbol} : write text = [] ↔ text = [] := by
  constructor
  · intro h
    cases text with
    | nil => rfl
    | cons s text => cases s <;> cases h
  · rintro rfl
    rfl

theorem splitOn_append_of_not_mem {front : List Char} (h : ',' ∉ front) (text : List Char) :
    (front ++ text).splitOn ',' = (text.splitOn ',').modifyHead (front ++ ·) := by
  induction front with
  | nil => cases hsplit : text.splitOn ',' <;> simp [hsplit]
  | cons c front ih =>
    obtain ⟨hc, hfront⟩ := not_or.mp (mt List.mem_cons.mpr h)
    rw [List.cons_append, List.splitOn_cons_eq_if_modifyHead, if_neg (by simpa using Ne.symm hc),
      ih hfront]
    cases text.splitOn ',' <;> rfl

/-- What is written comes apart at the commas of the working text. -/
theorem splitOn_write (text : List Symbol) :
    (write text).splitOn ',' = (text.splitOn (.char ',')).map write := by
  induction text with
  | nil => rfl
  | cons s text ih =>
    cases s with
    | char c =>
      rw [write_char, List.splitOn_cons_eq_if_modifyHead, List.splitOn_cons_eq_if_modifyHead, ih]
      by_cases hc : c = ','
      · simp [hc]
      · rw [if_neg (by simpa using hc), if_neg (by simpa using hc)]
        cases text.splitOn (.char ',') <;> rfl
    | group index =>
      have hcomma : ',' ∉ reference index := fun hmem =>
        ne_of_mem_reference hmem (by decide) (by decide) rfl
      rw [write_group, splitOn_append_of_not_mem hcomma, List.splitOn_cons_eq_if_modifyHead, ih,
        if_neg (by simp)]
      cases text.splitOn (.char ',') <;> rfl

/-! ### Names and references -/

/-- No name holds an at sign. -/
theorem keyName?_of_mem_at {chars : List Char} (h : '@' ∈ chars) : Entry.keyName? chars = none := by
  cases hname : Entry.keyName? chars with
  | none => rfl
  | some name =>
    exact absurd ((keyName?_eq_some_iff.mp hname).char_cases h) (by decide)

theorem keyName?_write (text : List Symbol) : Entry.keyName? (write text) = Entry.name? text := by
  cases hchars : Entry.chars? text with
  | some chars =>
    rw [chars?_eq_some_iff.mp hchars, write_ofChars, Entry.name?, chars?_eq_some_iff.mpr rfl]
    rfl
  | none =>
    rw [Entry.name?, hchars]
    refine keyName?_of_mem_at ?_
    induction text with
    | nil => cases hchars
    | cons s text ih =>
      cases s with
      | char c =>
        rw [Entry.chars?, Option.map_eq_none_iff] at hchars
        exact List.mem_cons_of_mem _ (ih hchars)
      | group index => exact List.mem_cons_self

theorem reference?_eq_some_iff {text : List Char} {index : Nat} :
    reference? text = some index ↔
      ∃ digits, text = '@' :: (digits ++ ['@']) ∧ digits ≠ [] ∧ (∀ c ∈ digits, c.isDigit = true) ∧
        Nat.ofDigitChars 10 digits 0 = index ∧ index < indexBound := by
  unfold reference?
  split
  · next rest =>
    rw [ite_eq_iff]
    simp only [reduceCtorEq, and_false, or_false, Option.some.injEq, List.all_eq_true]
    constructor
    · rintro ⟨⟨hlast, hne, hdigits, hbound⟩, rfl⟩
      obtain ⟨front, rfl⟩ := List.getLast?_eq_some_iff.mp hlast
      rw [List.dropLast_concat] at hne hdigits hbound
      exact ⟨front, rfl, hne, hdigits, by rw [List.dropLast_concat], by rwa [List.dropLast_concat]⟩
    · rintro ⟨digits, hrest, hne, hdigits, rfl, hbound⟩
      obtain rfl := (List.cons.inj hrest).2
      rw [List.dropLast_concat]
      exact ⟨⟨by simp, hne, hdigits, hbound⟩, rfl⟩
  · next hnot =>
    refine iff_of_false nofun ?_
    rintro ⟨digits, rfl, -⟩
    exact hnot _ rfl

theorem reference?_reference {index : Nat} (h : index < indexBound) :
    reference? (reference index) = some index :=
  reference?_eq_some_iff.mpr ⟨Nat.toDigits 10 index, rfl, Nat.toDigits_ne_nil,
    fun _ hc => Nat.isDigit_of_mem_toDigits (by omega) (le_refl 10) hc,
    Nat.ofDigitChars_ten_toDigits, h⟩

/-- A reference is read only where one stands alone: not out of characters, not across two
references, and not out of one with characters beside it. -/
theorem reference?_write {text : List Symbol} (h : ∀ s ∈ text, s.Clear) :
    reference? (write text) = Entry.reference? text := by
  match text with
  | [] => rfl
  | .char c :: text =>
    have hc : c ≠ '@' := h _ List.mem_cons_self
    refine Option.eq_none_iff_forall_ne_some.mpr fun index href => ?_
    obtain ⟨digits, htext, -⟩ := reference?_eq_some_iff.mp href
    exact hc (List.cons.inj htext).1
  | [.group index] =>
    have hbound : index < indexBound := h _ List.mem_cons_self
    rw [write_group, write_nil, List.append_nil, reference?_reference hbound]
    rfl
  | .group index :: s :: text =>
    -- the at sign that ends the first reference would have to be a digit
    refine Option.eq_none_iff_forall_ne_some.mpr fun other href => ?_
    obtain ⟨digits, htext, -, hdigits, -⟩ := reference?_eq_some_iff.mp href
    have hne : write (s :: text) ≠ [] := by simp [write_eq_nil_iff]
    obtain ⟨front, last, hwrite⟩ := (List.eq_nil_or_concat _).resolve_left hne
    rw [write_group, hwrite, reference] at htext
    have hinner : Nat.toDigits 10 index ++ '@' :: front ++ [last] = digits ++ ['@'] := by
      simpa using (List.cons.inj htext).2
    obtain ⟨rfl, -⟩ := List.append_inj' hinner rfl
    exact absurd (hdigits '@' (by simp)) (by decide)

/-! ### Entries -/

theorem exists_ofChars_append (text : List Symbol) :
    (∃ chars, text = ofChars chars) ∨
      ∃ chars index rest, text = ofChars chars ++ .group index :: rest := by
  induction text with
  | nil => exact .inl ⟨[], rfl⟩
  | cons s text ih =>
    cases s with
    | group index => exact .inr ⟨[], index, text, rfl⟩
    | char c =>
      rcases ih with ⟨chars, rfl⟩ | ⟨chars, index, rest, rfl⟩
      · exact .inl ⟨c :: chars, rfl⟩
      · exact .inr ⟨c :: chars, index, rest, rfl⟩

theorem not_at_of_clear {chars : List Char} (h : ∀ s ∈ ofChars chars, s.Clear) :
    ∀ c ∈ chars, at? c = none := by
  intro c hc
  have hclear : c ≠ '@' := h (.char c) (List.mem_map_of_mem hc)
  exact if_neg hclear

/-- A text without at signs is shown as it is. -/
theorem describe?_of_not_at {text : List Char} (h : ∀ c ∈ text, at? c = none) :
    describe? text = some text := by
  have hfirst : Bytes.first? at? text = none := by
    rw [Bytes.first?, Cut.first?_eq_none_iff.mpr h]
    rfl
  rw [describe?]
  simp only [hfirst]

/-- What stands before a reference is shown as it is, and the reference as dots. -/
theorem describe?_reference {front : List Char} (h : ∀ c ∈ front, at? c = none) (index : Nat)
    (rest : List Char) :
    describe? (front ++ reference index ++ rest) =
      (describe? rest).map (front ++ ['.', '.', '.'] ++ ·) := by
  have htext : front ++ reference index ++ rest =
      front ++ '@' :: (Nat.toDigits 10 index ++ '@' :: rest) := by
    simp [reference]
  have hdigits : ∀ c ∈ Nat.toDigits 10 index, at? c = none := by
    intro c hc
    have hdigit := Nat.isDigit_of_mem_toDigits (by omega) (le_refl 10) hc
    refine if_neg ?_
    rintro rfl
    revert hdigit
    decide
  have hopen : Bytes.first? at? (front ++ '@' :: (Nat.toDigits 10 index ++ '@' :: rest)) =
      some (size front, ()) := by
    rw [Bytes.first?, Cut.first?_append_cons h (if_pos rfl)]
    rfl
  have hclose : Bytes.first? at? (Nat.toDigits 10 index ++ '@' :: rest) =
      some (size (Nat.toDigits 10 index), ()) := by
    rw [Bytes.first?, Cut.first?_append_cons hdigits (if_pos rfl)]
    rfl
  have hat : '@'.utf8Size = 1 := by decide
  have hafter := cut?_succ front (Nat.toDigits 10 index ++ '@' :: rest) hat
  have hrest := cut?_succ (Nat.toDigits 10 index) rest hat
  rw [htext, describe?]
  simp only [hopen, cut?_append]
  split
  · next before opened _ after hbefore hcut =>
    rw [hafter] at hcut
    cases hbefore
    cases hcut
    simp only [hclose]
    split
    · next hcut =>
      rw [hrest] at hcut
      cases hcut
    · next hcut =>
      rw [hrest] at hcut
      cases hcut
      rfl
  · next hnot => exact absurd hafter (by simpa using hnot _ _ _ _ rfl)

/-- An error shows what is written as it shows the working text. -/
theorem describe?_write : (text : List Symbol) → (∀ s ∈ text, s.Clear) →
    describe? (write text) = some (Symbol.describe text).toList
  | text, h => by
    rcases exists_ofChars_append text with ⟨chars, rfl⟩ | ⟨chars, index, rest, htext⟩
    · rw [write_ofChars, describe?_of_not_at (not_at_of_clear h)]
      simp [Symbol.describe, ofChars, List.flatMap_map]
    · have hchars := not_at_of_clear fun s hs => h s (htext ▸ List.mem_append_left _ hs)
      have hrest := describe?_write rest fun s hs =>
        h s (htext ▸ List.mem_append_right _ (List.mem_cons_of_mem _ hs))
      rw [htext, write_append, write_ofChars, write_group, ← List.append_assoc,
        describe?_reference hchars, hrest]
      simp [Symbol.describe, ofChars, List.flatMap_map]
termination_by text => text.length
decreasing_by
  rw [htext, List.length_append, List.length_cons]
  omega

theorem mem_of_mem_trim {text : List Symbol} {s : Symbol} (h : s ∈ Symbol.trim text) :
    s ∈ text := by
  obtain ⟨p, q, -, -, htext⟩ := exists_pad text
  rw [htext]
  exact List.mem_append_left _ (List.mem_append_right _ h)

/-- An entry is read out of what is written as it is read out of the working text. -/
theorem entry_write {text : List Symbol} (h : ∀ s ∈ text, s.Clear) :
    entry (write text) =
      match Entry.ofTrimmed? (Symbol.trim text) with
      | some found => .ok found
      | none => .error (write (Symbol.trim text)) := by
  have hclear : ∀ s ∈ Symbol.trim text, s.Clear := fun s hs => h s (mem_of_mem_trim hs)
  rw [entry, trim_write, finds_colon.first?, Entry.ofTrimmed?]
  cases hcut : Cut.first? colon? (Symbol.trim text) with
  | none =>
    unfold colon? at hcut
    simp only [hcut, Option.map_none, reference?_write hclear, keyName?_write]
    cases Entry.reference? (Symbol.trim text) with
    | some index => rfl
    | none => cases Entry.name? (Symbol.trim text) <;> rfl
  | some found =>
    obtain ⟨label, _, target⟩ := found
    obtain ⟨c, htext, -⟩ := Cut.eq_of_first? hcut
    have htarget : ∀ s ∈ Symbol.trim target, s.Clear := fun s hs =>
      hclear s <| by
        rw [htext]
        exact List.mem_append_right _ (List.mem_cons_of_mem _ (mem_of_mem_trim hs))
    unfold colon? at hcut
    simp only [hcut, Option.map_some, trim_write, reference?_write htarget, keyName?_write]
    cases Entry.name? (Symbol.trim label) with
    | none => rfl
    | some name => cases Entry.reference? (Symbol.trim target) <;> rfl

/-- The entry that is no entry is the same in both texts. -/
theorem entry_write_cases {text : List Symbol} (h : ∀ s ∈ text, s.Clear) :
    (∃ found, Entry.ofText text = .ok found ∧ entry (write text) = .ok found) ∨
      ∃ shown, (∀ s ∈ shown, s.Clear) ∧
        Entry.ofText text = .error (.invalidEntry (Symbol.describe shown)) ∧
        entry (write text) = .error (write shown) := by
  rw [entry_write h, Entry.ofText]
  cases hfound : Entry.ofTrimmed? (Symbol.trim text) with
  | some found => exact .inl ⟨found, rfl, rfl⟩
  | none =>
    exact .inr ⟨Symbol.trim text, fun s hs => h s (mem_of_mem_trim hs), rfl, rfl⟩

theorem mem_of_mem_splitOn {text part : List Symbol} {s : Symbol}
    (hpart : part ∈ text.splitOn (.char ',')) (hs : s ∈ part) : s ∈ text := by
  have hjoin : [.char ','].intercalate (text.splitOn (.char ',')) = text :=
    List.intercalate_splitOn _
  rw [← hjoin]
  generalize text.splitOn (.char ',') = parts at hpart ⊢
  induction parts with
  | nil => cases hpart
  | cons first rest ih =>
    cases rest with
    | nil => simpa [List.mem_singleton.mp hpart] using hs
    | cons second rest =>
      rw [List.intercalate_cons_cons]
      rcases List.mem_cons.mp hpart with rfl | hpart
      · exact List.mem_append_left _ (List.mem_append_left _ hs)
      · exact List.mem_append_right _ (ih hpart)

/-- The entries of a body are read out of what is written as they are out of the working text. -/
theorem entries_write_cases {body : List Symbol} (h : ∀ s ∈ body, s.Clear) :
    (∃ found, Entry.ofBody body = .ok found ∧ entries (write body) = .ok found) ∨
      ∃ shown, (∀ s ∈ shown, s.Clear) ∧
        Entry.ofBody body = .error (.invalidEntry (Symbol.describe shown)) ∧
        entries (write body) = .error (write shown) := by
  have hnil : trim (write body) = [] ↔ Symbol.trim body = [] := by
    rw [trim_write, write_eq_nil_iff]
  rw [entries, splitOn_write, Entry.ofBody]
  by_cases hblank : Symbol.trim body = []
  · rw [if_pos hblank, if_pos (hnil.mpr hblank)]
    exact .inl ⟨[], rfl, rfl⟩
  · rw [if_neg hblank, if_neg (mt hnil.mp hblank)]
    have hparts : ∀ part ∈ body.splitOn (.char ','), ∀ s ∈ part, s.Clear :=
      fun part hpart s hs => h s (mem_of_mem_splitOn hpart hs)
    generalize body.splitOn (.char ',') = parts at hparts ⊢
    induction parts with
    | nil => exact .inl ⟨[], rfl, rfl⟩
    | cons part parts ih =>
      rw [List.map_cons, List.mapM_cons, List.mapM_cons]
      rcases entry_write_cases (hparts part List.mem_cons_self) with
        ⟨first, htext, hentry⟩ | ⟨shown, hclear, htext, hentry⟩
      · rw [htext, hentry]
        rcases ih fun part hpart => hparts part (List.mem_cons_of_mem _ hpart) with
          ⟨rest, hbody, hrest⟩ | ⟨shown, hclear, hbody, hrest⟩
        · exact .inl ⟨first :: rest, by rw [hbody]; rfl, by rw [hrest]; rfl⟩
        · exact .inr ⟨shown, hclear, by rw [hbody]; rfl, by rw [hrest]; rfl⟩
      · exact .inr ⟨shown, hclear, by rw [htext]; rfl, by rw [hentry]; rfl⟩

/-! ### Steps -/

theorem build_eq_ofEntries (kind : GroupKind) (body : List Symbol) (slots : Slots) :
    Group.build kind body slots =
      Entry.ofBody body >>= fun entries => Group.ofEntries kind entries slots := by
  cases kind <;> rfl

/-- The same group is built from what is written. -/
theorem build_write {body : List Symbol} (h : ∀ s ∈ body, s.Clear) (kind : GroupKind)
    (slots : Slots) : build kind (write body) slots = some (Group.build kind body slots) := by
  rw [build_eq_ofEntries]
  rcases entries_write_cases h with ⟨found, hbody, hwrite⟩ | ⟨shown, hclear, hbody, hwrite⟩
  · simp only [build, hwrite, hbody]
    rfl
  · simp only [build, hwrite, hbody, describe?_write shown hclear, Option.map_some,
      String.ofList_toList]
    rfl

/-- The first opening delimiter of what is written is that of the working text. -/
theorem find?_opener_write (text : List Symbol) :
    (write text).find? (fun c => (GroupKind.ofOpener? c).isSome) =
      (text.findSome? opens?).map GroupKind.opener := by
  induction text with
  | nil => rfl
  | cons s text ih =>
    cases s with
    | char c =>
      rw [write_char, List.find?_cons, List.findSome?_cons, ih]
      cases hc : GroupKind.ofOpener? c with
      | none => simp [opens?, hc]
      | some kind =>
        have hopener : c = kind.opener := Symbol.char.inj (eq_char_opener (s := .char c) hc)
        simp only [Option.isSome_some, opens?, hc, Option.map_some]
        exact congrArg some hopener
    | group index =>
      have hnone : (reference index).find? (fun c => (GroupKind.ofOpener? c).isSome) = none :=
        List.find?_eq_none.mpr fun c hc => by simp [ofOpener?_of_mem_reference hc]
      rw [write_group, List.find?_append, hnone, ih]
      rfl

/-- The offsets of the delimiters of a group. -/
def span (group : Innermost) : Span :=
  ⟨group.kind, size (write group.before),
    size (write (group.before ++ .char group.kind.opener :: group.body))⟩

/-- The group that is found in what is written is the one that is found in the working text. -/
theorem innermost?_write (text : List Symbol) :
    innermost? (write text) = some ((Symbol.innermost? text).map (Option.map span)) := by
  rw [innermost?, Symbol.innermost?, Bytes.first?, finds_closer.first?]
  cases hfirst : Cut.first? closes? text with
  | none =>
    simp only [Option.map_none, find?_opener_write]
    cases text.findSome? opens? <;> rfl
  | some found =>
    obtain ⟨front, closed, after⟩ := found
    obtain ⟨c, htext, hc, -⟩ := Cut.eq_of_first? hfirst
    have hcut : cut? (write text) (size (write front)) =
        some (write front, write (c :: after)) := by
      rw [htext, write_append]
      exact cut?_append _ _
    simp only [Option.map_some, hcut, Option.bind_eq_bind, Option.bind_some, Bytes.last?,
      finds_opener.last?]
    cases hlast : Cut.last? opens? front with
    | none => rfl
    | some found =>
      obtain ⟨before, opened, body⟩ := found
      obtain ⟨o, hfront, ho, -⟩ := Cut.eq_of_last? hlast
      simp only [Option.map_some]
      by_cases hkind : opened = closed
      · subst hkind
        rw [if_pos rfl, if_pos rfl, hfront, eq_char_opener ho]
        rfl
      · rw [if_neg hkind, if_neg hkind]
        rfl

end Written

/-- The state with its text written out. -/
def Reduction.written (state : Reduction) : Written := ⟨Written.write state.text, state.slots⟩

namespace Written

/-- A step does to what is written what it does to the working text. -/
theorem step_written {state : Reduction} (h : ∀ s ∈ state.text, s.Clear) :
    state.written.step = some (state.step.map (Option.map Reduction.written)) := by
  rw [step, Reduction.step, Reduction.written, innermost?_write]
  cases hfound : Symbol.innermost? state.text with
  | error fault => rfl
  | ok found =>
    cases found with
    | none => rfl
    | some group =>
      have htext := (innermost?_eq_some_iff.mp hfound).1
      have hwrite : write state.text = write group.before ++
          group.kind.opener :: write group.body ++ group.kind.closer :: write group.after := by
        simp [htext, Innermost.text]
      have hspan : span group = ⟨group.kind, size (write group.before),
          size (write group.before ++ group.kind.opener :: write group.body)⟩ := by
        simp only [span, write_append, write_char]
      have hbody : ∀ s ∈ group.body, s.Clear := fun s hs =>
        h s (by simp [htext, Innermost.text, hs])
      have hopener : (group.kind.opener).utf8Size = 1 := by cases group.kind <;> decide
      have hcloser : (group.kind.closer).utf8Size = 1 := by cases group.kind <;> decide
      change reduceAt ⟨write state.text, state.slots⟩ (span group) = _
      rw [hwrite, hspan, reduceAt_eq _ _ _ _ group.kind hopener hcloser,
        build_write hbody]
      simp only [bind, Except.bind]
      cases Group.build group.kind group.body state.slots with
      | error fault => rfl
      | ok built =>
        obtain ⟨parked, slots⟩ := built
        simp [Except.map, pure, Except.pure, Reduction.written, Innermost.replace]

theorem finish_written {state : Reduction} (h : ∀ s ∈ state.text, s.Clear) :
    state.written.finish = some state.finish := by
  have htrim : ∀ s ∈ Symbol.trim state.text, s.Clear := fun s hs => h s (mem_of_mem_trim hs)
  rw [finish, Reduction.written, trim_write, reference?_write htrim, build_write htrim]
  by_cases href : ∃ index, Symbol.trim state.text = [.group index]
  · obtain ⟨index, href⟩ := href
    rw [Reduction.finish_of_reference href, Rule.reference?_eq_some_iff.mpr href]
  · have hnot : ∀ index, Symbol.trim state.text ≠ [.group index] := fun index he => href ⟨index, he⟩
    have hnone : Entry.reference? (Symbol.trim state.text) = none :=
      Option.eq_none_iff_forall_ne_some.mpr fun index he =>
        hnot index (Rule.reference?_eq_some_iff.mp he)
    rw [Reduction.finish_of_entries hnot, hnone]
    rfl

end Written

/-! ### States of a reduction can be read back -/

namespace Reduction

/-- What every step of the reduction of a rule keeps. -/
structure Legible (rule : List Char) (state : Reduction) : Prop where
  /-- Each reference finds its group. -/
  linear : state.Linear
  /-- No character is added to the rule. -/
  chars : ∀ c, .char c ∈ state.text → isRuleChar c = true
  /-- For each group that was parked a closing delimiter is gone. -/
  size_eq : state.slots.length + closers state.text = closers (ofChars rule)

theorem legible_start {rule : List Char} (h : ∀ c ∈ rule, isRuleChar c = true) :
    (start rule).Legible rule := by
  refine ⟨linear_start rule, fun c hc => ?_, Nat.zero_add _⟩
  obtain ⟨d, hd, he⟩ := List.mem_map.mp hc
  cases he
  exact h c hd

/-- A step takes one closing delimiter away. -/
theorem Next.closers_eq {state next : Reduction} (h : state.Next next) :
    closers next.text + 1 = closers state.text := by
  obtain ⟨group, parked, slots, htext, hvalid, -, rfl⟩ := next_iff.mp h
  have hbody : closers group.body = 0 := List.countP_eq_zero.mpr fun s hs => by
    simp [hvalid.body_closes s hs]
  have hgroup : (Symbol.group slots.length).closes? = none := rfl
  rw [closers] at hbody
  simp only [htext, Innermost.text, Innermost.replace, closers, List.countP_append,
    List.countP_cons, hbody, closes?_char_opener, closes?_char_closer, hgroup, Option.isSome_none,
    Option.isSome_some, if_true, Bool.false_eq_true, if_false]
  omega

theorem Next.legible {rule : List Char} {state next : Reduction} (h : state.Next next)
    (hs : state.Legible rule) : next.Legible rule := by
  have hlinear := h.linear hs.linear
  have hclosers := h.closers_eq
  obtain ⟨group, parked, slots, htext, -, hbuild, rfl⟩ := next_iff.mp h
  refine ⟨hlinear, fun c hc => hs.chars c ?_, ?_⟩
  · rw [htext]
    simp only [Innermost.replace, List.mem_append, List.mem_cons, reduceCtorEq, false_or] at hc
    simp only [Innermost.text, List.mem_append, List.mem_cons]
    rcases hc with hc | hc
    · exact .inl hc
    · exact .inr (.inr (.inr (.inr hc)))
  · have hlin := hs.linear
    rw [Linear, htext, references_innermost] at hlin
    obtain ⟨entries, parts, -, hread, -, -⟩ := Group.exists_parts_of_build hlin hbuild
    have hsize := hs.size_eq
    have hlength := hread.length_eq
    rw [List.length_append, List.length_singleton]
    omega

theorem Legible.index_lt {rule : List Char} {state : Reduction} (h : state.Legible rule)
    {index : Nat} (hindex : index ∈ references state.text) : index < state.slots.length := by
  obtain ⟨parked, hslot⟩ := (h.linear.holds_iff index).mpr hindex
  exact (List.getElem?_eq_some_iff.mp hslot).1

theorem length_le_utf8ByteSize (rule : String) : rule.toList.length ≤ rule.utf8ByteSize := by
  rw [← String.utf8Len_toList]
  induction rule.toList with
  | nil => exact le_refl 0
  | cons c chars ih =>
    have hpos := Char.utf8Size_pos c
    rw [String.utf8Len_cons, List.length_cons]
    omega

/-- The numbers of a rule that is not too long can be read back. -/
theorem Legible.clear {rule : String} {state : Reduction} (h : state.Legible rule.toList)
    (hlength : rule.utf8ByteSize ≤ maxLength) : ∀ s ∈ state.text, s.Clear := by
  intro s hs
  cases s with
  | char c =>
    rintro rfl
    exact absurd (h.chars '@' hs) (by decide)
  | group index =>
    have hindex := h.index_lt (List.mem_filterMap.mpr ⟨_, hs, rfl⟩)
    have hsize := h.size_eq
    have hcount : closers (ofChars rule.toList) ≤ rule.toList.length := by
      have hle := List.countP_le_length (p := fun s : Symbol => s.closes?.isSome)
        (l := ofChars rule.toList)
      rwa [ofChars, List.length_map] at hle
    have hbytes := length_le_utf8ByteSize rule
    have hmax : maxLength ≤ Written.indexBound := by decide
    change index < Written.indexBound
    omega

end Reduction

namespace Written

theorem run_of_none {state : Written} (h : state.step = some (.ok none)) :
    state.run = state.finish := by
  rw [run]
  split <;> simp_all

theorem run_of_error {state : Written} {fault : Fault} (h : state.step = some (.error fault)) :
    state.run = some (.error fault) := by
  rw [run]
  split <;> simp_all

theorem run_of_next {state next : Written} (h : state.step = some (.ok (some next))) :
    state.run = next.run := by
  rw [run]
  split <;> simp_all

/-- From a legible state the two machines end in the same. -/
theorem run_written {rule : String} (hlength : rule.utf8ByteSize ≤ maxLength) {state : Reduction}
    (h : state.Legible rule.toList) : state.written.run = some state.run := by
  have hstep := step_written (h.clear hlength)
  induction state using Reduction.run.induct with
  | case1 state fault he =>
    rw [he] at hstep
    rw [run_of_error hstep, Reduction.run_of_error he]
  | case2 state hnone =>
    rw [hnone] at hstep
    rw [run_of_none hstep, Reduction.run_of_none hnone, finish_written (h.clear hlength)]
  | case3 state next hnext ih =>
    rw [hnext] at hstep
    have hlegible := Reduction.Next.legible hnext h
    rw [run_of_next hstep, Reduction.run_of_next hnext]
    exact ih hlegible (step_written (hlegible.clear hlength))

theorem trim_eq_nil_iff {chars : List Char} : trim chars = [] ↔ Blank chars := by
  have hwrite := trim_write (ofChars chars)
  rw [write_ofChars] at hwrite
  rw [hwrite, write_eq_nil_iff, Symbol.trim_eq_nil_iff]
  constructor
  · rintro ⟨p, hp, he⟩
    have hchars := congrArg write he
    rw [write_ofChars, write_ofChars] at hchars
    exact hchars ▸ hp
  · intro h
    exact ⟨chars, h, rfl⟩

/-- The plain text machine never crashes, and compiles a rule to the same. -/
theorem compile_eq_some (rule : String) : compile rule = some (Rule.compile rule) := by
  rw [compile, Rule.compile]
  by_cases hlength : rule.utf8ByteSize > maxLength
  · rw [if_pos hlength, if_pos hlength]
  · by_cases hchars : invalidChars rule ≠ []
    · rw [if_neg hlength, if_neg hlength, if_pos hchars, if_pos hchars]
    · have hblank : rule.toList.all (· == ' ') = true ↔ trim rule.toList = [] := by
        rw [trim_eq_nil_iff]
        simp [Blank]
      rw [if_neg hlength, if_neg hlength, if_neg hchars, if_neg hchars]
      by_cases htrim : trim rule.toList = []
      · rw [if_pos htrim, if_pos (hblank.mpr htrim)]
      · have hlegible : (Reduction.start rule.toList).Legible rule.toList :=
          Reduction.legible_start (invalidChars_eq_nil_iff.mp (not_not.mp hchars))
        have hrun := run_written (Nat.not_lt.mp hlength) hlegible
        have hstart : (Reduction.start rule.toList).written = start rule.toList := by
          simp only [Reduction.written, Reduction.start, start, write_ofChars]
        rw [hstart] at hrun
        rw [if_neg htrim, if_neg (mt hblank.mp htrim), hrun]
        rfl

end Written

end Allowlist.Rule

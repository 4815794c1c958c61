import Allowlist.Proofs.Rule.Legible

/-!
# Proofs.Rule.Intact — the reduction never goes wrong inside

A written text can be read in one way only (`Written.Reads.unique`): two at signs that follow each
other bound a reference or the gap between two, and the first of the text opens one.  So the states
of the reduction are intact (`Written.Intact`): their references are those of the occupied slots,
what is read as a reference was written as one, every offset is a place to cut the text, and every
step takes two delimiters away, whether or not the text grows.
-/

namespace Allowlist.Rule

open Allowlist.Rule.Symbol

namespace Written

/-! ### One reading -/

/-- The text is that of the symbols, and at signs stand in references only. -/
structure Reads (text : List Char) (symbols : List Symbol) : Prop where
  write_eq : write symbols = text
  no_at : ∀ s ∈ symbols, s ≠ .char '@'

theorem Reads.tail {text : List Char} {s : Symbol} {symbols : List Symbol}
    (h : Reads text (s :: symbols)) : Reads (write symbols) symbols :=
  ⟨rfl, fun t ht => h.no_at t (List.mem_cons_of_mem _ ht)⟩

theorem reference_append_inj {i j : Nat} {rest rest' : List Char}
    (h : reference i ++ rest = reference j ++ rest') : i = j ∧ rest = rest' := by
  have hdigit : ∀ k, ∀ c ∈ Nat.toDigits 10 k, c.isDigit = true :=
    fun k c hc => Nat.isDigit_of_mem_toDigits (by omega) (le_refl 10) hc
  have hinner : Nat.toDigits 10 i ++ '@' :: rest = Nat.toDigits 10 j ++ '@' :: rest' := by
    simpa [reference] using h
  obtain ⟨hdigits, hrest⟩ := append_inj_of_span (P := fun c => c.isDigit = true) (hdigit i)
    (hdigit j) (by simp) (by simp) hinner
  refine ⟨?_, (List.cons.inj hrest).2⟩
  calc i = Nat.ofDigitChars 10 (Nat.toDigits 10 i) 0 := Nat.ofDigitChars_ten_toDigits.symm
    _ = Nat.ofDigitChars 10 (Nat.toDigits 10 j) 0 := by rw [hdigits]
    _ = j := Nat.ofDigitChars_ten_toDigits

/-- A written text has one reading. -/
theorem Reads.unique {text : List Char} {symbols symbols' : List Symbol} (h : Reads text symbols)
    (h' : Reads text symbols') : symbols = symbols' := by
  have hwrite : write symbols = write symbols' := h.write_eq.trans h'.write_eq.symm
  have hat : ∀ {c : Char} {index : Nat} {rest rest' : List Char},
      c :: rest = reference index ++ rest' → c = '@' := fun h => (List.cons.inj h).1
  induction symbols generalizing text symbols' with
  | nil => exact (write_eq_nil_iff.mp hwrite.symm).symm
  | cons s symbols ih =>
    cases symbols' with
    | nil => exact write_eq_nil_iff.mp hwrite
    | cons s' symbols' =>
      have htail : Reads (write symbols) symbols' → write symbols = write symbols' →
          symbols = symbols' := ih h.tail
      cases s with
      | char c =>
        cases s' with
        | char c' =>
          obtain ⟨rfl, hrest⟩ := List.cons.inj hwrite
          rw [htail ⟨hrest.symm, h'.tail.no_at⟩ hrest]
        | group j => exact absurd (congrArg Symbol.char (hat hwrite)) (h.no_at _ List.mem_cons_self)
      | group i =>
        cases s' with
        | char c' =>
          exact absurd (congrArg Symbol.char (hat hwrite.symm)) (h'.no_at _ List.mem_cons_self)
        | group j =>
          obtain ⟨rfl, hrest⟩ := reference_append_inj hwrite
          rw [htail ⟨hrest.symm, h'.tail.no_at⟩ hrest]

/-! ### Parts of a text -/

/-- A character that stands between names and references, or around them. -/
def isSeparator (c : Char) : Bool := [',', ':', '\x7b', '\x7d', '[', ']'].contains c

/-- A part of the text that reaches from a separator, or the start, to a separator, or the end. -/
structure Part (text before part after : List Char) : Prop where
  text_eq : text = before ++ part ++ after
  left : ∀ c ∈ before.getLast?, isSeparator c = true
  right : ∀ c ∈ after.head?, isSeparator c = true

theorem not_mem_reference_of_isSeparator {c : Char} (hc : isSeparator c = true) (index : Nat) :
    c ∉ reference index := by
  intro hmem
  rcases eq_at_or_isDigit_of_mem hmem with rfl | hdigit
  · revert hc
    decide
  · have hcases : c = ',' ∨ c = ':' ∨ c = '\x7b' ∨ c = '\x7d' ∨ c = '[' ∨ c = ']' := by
      simpa [isSeparator] using hc
    rcases hcases with rfl | rfl | rfl | rfl | rfl | rfl <;> exact absurd hdigit (by decide)

/-- A character that no reference is written with stands for itself. -/
theorem exists_of_write_eq_append_cons {symbols : List Symbol} {before after : List Char} {c : Char}
    (hc : ∀ index, c ∉ reference index) (h : write symbols = before ++ c :: after) :
    ∃ front back, symbols = front ++ .char c :: back ∧ before = write front ∧
      after = write back := by
  induction symbols generalizing before with
  | nil => simp at h
  | cons s symbols ih =>
    have hsplit : s.write ++ write symbols = before ++ c :: after := h
    rcases List.append_eq_append_iff.mp hsplit with ⟨t, rfl, hrest⟩ | ⟨t, hs, hrest⟩
    · obtain ⟨front, back, rfl, ht, hafter⟩ := ih hrest
      exact ⟨s :: front, back, rfl, by rw [ht]; rfl, hafter⟩
    · cases t with
      | nil =>
        have hwhole : write symbols = [] ++ c :: after := hrest.symm
        obtain ⟨front, back, hsymbols, hfront, hafter⟩ := ih hwhole
        refine ⟨s :: front, back, by rw [hsymbols]; rfl, ?_, hafter⟩
        rw [List.append_nil] at hs
        rw [← hs, ← List.append_nil s.write, hfront]
        rfl
      | cons d t =>
        obtain ⟨rfl, hafter⟩ := List.cons.inj hrest
        cases s with
        | group index =>
          have hmem : c ∈ reference index := by
            change reference index = _ at hs
            rw [hs]
            simp
          exact absurd hmem (hc index)
        | char d =>
          cases before with
          | nil =>
            obtain ⟨rfl, ht⟩ := List.cons.inj hs
            refine ⟨[], symbols, rfl, rfl, ?_⟩
            rw [hafter, ← ht]
            rfl
          | cons e before =>
            have hlength := congrArg List.length hs
            simp [Symbol.write] at hlength

/-- The symbols of a text come apart where its parts do. -/
theorem Part.exists_symbols {symbols : List Symbol} {before part after : List Char}
    (h : Part (write symbols) before part after) :
    ∃ front middle back, symbols = front ++ middle ++ back ∧ before = write front ∧
      part = write middle ∧ after = write back := by
  obtain ⟨front, rest, rfl, hfront, hrest⟩ :
      ∃ front rest, symbols = front ++ rest ∧ before = write front ∧
        part ++ after = write rest := by
    rcases List.eq_nil_or_concat before with rfl | ⟨before, c, rfl⟩
    · exact ⟨[], symbols, rfl, rfl, by rw [h.text_eq]; rfl⟩
    · have hc := not_mem_reference_of_isSeparator (h.left c (by simp))
      have htext : write symbols = before ++ c :: (part ++ after) := by
        rw [h.text_eq]
        simp
      obtain ⟨front, back, rfl, rfl, hback⟩ := exists_of_write_eq_append_cons hc htext
      exact ⟨front ++ [.char c], back, by simp, by simp, hback⟩
  cases after with
  | nil =>
    rw [List.append_nil] at hrest
    exact ⟨front, rest, [], by simp, hfront, hrest, rfl⟩
  | cons c after =>
    have hc := not_mem_reference_of_isSeparator (h.right c rfl)
    obtain ⟨middle, back, rfl, rfl, rfl⟩ := exists_of_write_eq_append_cons hc hrest.symm
    exact ⟨front, middle, .char c :: back, by simp, hfront, rfl, rfl⟩

/-! ### Intact states -/

theorem ascii_of_isAlphanum {c : Char} (h : c.isAlphanum = true) : c.toNat < 128 := by
  have hclass : (c.isUpper || c.isLower || c.isDigit) = true := h
  rw [Bool.or_eq_true, Bool.or_eq_true] at hclass
  rcases hclass with (hupper | hlower) | hdigit
  · have hZ : c.val ≤ 'Z'.val := (of_decide_eq_true hupper).2
    exact Nat.lt_of_le_of_lt (UInt32.le_iff_toNat_le.mp hZ) (by decide)
  · have hz : c.val ≤ 'z'.val := of_decide_eq_true (Bool.and_eq_true_iff.mp hlower).2
    exact Nat.lt_of_le_of_lt (UInt32.le_iff_toNat_le.mp hz) (by decide)
  · exact Nat.lt_of_le_of_lt (Char.isDigit_iff_toNat.mp hdigit).2 (by decide)

theorem ascii_of_isRuleChar {c : Char} (h : isRuleChar c = true) : c.toNat < 128 := by
  simp only [isRuleChar, isQuotedChar, isNameChar, Bool.or_eq_true, beq_iff_eq,
    List.contains_iff_mem, List.mem_cons, List.not_mem_nil, or_false] at h
  rcases h with (((h | rfl) | rfl) | rfl) | rfl | rfl | rfl | rfl | rfl | rfl | rfl
  · exact ascii_of_isAlphanum h
  all_goals decide

/-- What holds of the reduction of a rule after `n` steps. -/
structure Intact (rule : List Char) (n : Nat) (state : Written) : Prop where
  /-- Every character is one byte long. -/
  ascii : ∀ c ∈ state.text, c.toNat < 128
  /-- The text has one reading, and the references in it, none of them twice, are the numbers of the
  occupied slots. -/
  reading : ∃ symbols, Reads state.text symbols ∧
    (∀ other, Reads state.text other → other = symbols) ∧ (references symbols).Nodup ∧
    ∀ index, index ∈ references symbols ↔ ∃ parked, state.slots[index]? = some (some parked)
  /-- What is taken for a reference is one in the reading of the text. -/
  unforged : ∀ before part after index, Part state.text before part after →
    reference? (trim part) = some index →
      ∃ front back, Reads before front ∧ Reads (trim part) [.group index] ∧ Reads after back
  /-- Every offset is a place to cut the text. -/
  in_range : state.step ≠ none ∧ (state.step = some (.ok none) → state.finish ≠ none)
  /-- A step takes two delimiters away. -/
  delimiters_eq : ∀ next, state.step = some (.ok (some next)) →
    delimiters next.text + 2 = delimiters state.text
  /-- Each step so far took one closing delimiter away. -/
  steps_eq : n + closers state.text = closers rule

theorem closers_write (text : List Symbol) : closers (write text) = Symbol.closers text := by
  induction text with
  | nil => rfl
  | cons s text ih =>
    rw [closers] at ih
    cases s with
    | char c =>
      simp only [closers, Symbol.closers, write_char, List.countP_cons, ih]
      rfl
    | group index =>
      have hreference : (reference index).countP (fun c => (GroupKind.ofCloser? c).isSome) = 0 :=
        List.countP_eq_zero.mpr fun c hc => by simp [ofCloser?_of_mem_reference hc]
      have hgroup : (Symbol.group index).closes? = none := rfl
      simp only [closers, Symbol.closers, write_group, List.countP_append, List.countP_cons, ih,
        hreference, hgroup]
      simp

/-- Without delimiters among the symbols there is none in what is written. -/
theorem delimiters_write_eq_zero (text : List Symbol)
    (h : ∀ s ∈ text, s.closes? = none ∧ s.opens? = none) : delimiters (write text) = 0 := by
  refine List.countP_eq_zero.mpr fun c hc => ?_
  obtain ⟨s, hs, hmem⟩ := List.mem_flatMap.mp hc
  cases s with
  | char d =>
    obtain rfl := List.mem_singleton.mp hmem
    obtain ⟨hcloses, hopens⟩ := h _ hs
    change GroupKind.ofCloser? c = none at hcloses
    change GroupKind.ofOpener? c = none at hopens
    simp [hcloses, hopens]
  | group index => simp [ofCloser?_of_mem_reference hmem, ofOpener?_of_mem_reference hmem]

/-- The two delimiters of the group that is built are gone, and the reference adds none. -/
theorem delimiters_of_next {state next : Reduction} (h : state.Next next) :
    delimiters (write next.text) + 2 = delimiters (write state.text) := by
  obtain ⟨group, parked, slots, htext, hvalid, -, rfl⟩ := Reduction.next_iff.mp h
  have hbody := delimiters_write_eq_zero group.body fun s hs =>
    ⟨hvalid.body_closes s hs, hvalid.body_opens s hs⟩
  have hreference := delimiters_write_eq_zero [.group slots.length] fun s hs => by
    rw [List.mem_singleton.mp hs]
    exact ⟨rfl, rfl⟩
  have hopener : delimiters [group.kind.opener] = 1 := by cases group.kind <;> decide
  have hcloser : delimiters [group.kind.closer] = 1 := by cases group.kind <;> decide
  rw [delimiters] at hbody hreference hopener hcloser
  rw [write_group, write_nil, List.append_nil] at hreference
  rw [List.countP_singleton] at hopener hcloser
  simp only [htext, Innermost.text, Innermost.replace, delimiters, write_append, write_char,
    write_group, List.countP_append, List.countP_cons, hbody, hreference, hopener, hcloser]
  omega

/-- The states that are reached are legible states written out. -/
theorem exists_legible_of_reached {rule : String} (hrule : Checked rule) {n : Nat} {state : Written}
    (h : Reached rule.toList n state) :
    ∃ origin : Reduction, state = origin.written ∧ origin.Legible rule.toList ∧
      n + Symbol.closers origin.text = closers rule.toList := by
  induction h with
  | start =>
    refine ⟨Reduction.start rule.toList, ?_, Reduction.legible_start ?_, ?_⟩
    · simp only [Reduction.written, Reduction.start, start, write_ofChars]
    · exact invalidChars_eq_nil_iff.mp hrule.chars
    · rw [Nat.zero_add, Reduction.start, ← closers_write, write_ofChars]
  | next _ hstep ih =>
    obtain ⟨origin, rfl, hlegible, hcount⟩ := ih
    rw [step_written (hlegible.clear hrule.length_le), Option.some.injEq] at hstep
    obtain ⟨found, hfound, hnext⟩ := Outcome.map_eq_ok_iff.mp hstep
    obtain ⟨next, rfl, rfl⟩ := Option.map_eq_some_iff.mp hnext
    have horigin : origin.Next next := hfound
    have hclosers := horigin.closers_eq
    exact ⟨next, rfl, horigin.legible hlegible, by omega⟩

theorem ascii_of_legible {rule : List Char} {origin : Reduction} (h : origin.Legible rule) :
    ∀ c ∈ write origin.text, c.toNat < 128 := by
  intro c hc
  obtain ⟨s, hs, hmem⟩ := List.mem_flatMap.mp hc
  cases s with
  | char d =>
    obtain rfl := List.mem_singleton.mp hmem
    exact ascii_of_isRuleChar (h.chars c hs)
  | group index =>
    rcases eq_at_or_isDigit_of_mem hmem with rfl | hdigit
    · decide
    · exact ascii_of_isAlphanum (by rw [Char.isAlphanum, hdigit, Bool.or_true])

theorem reads_of_clear {symbols : List Symbol} (h : ∀ s ∈ symbols, s.Clear) :
    Reads (write symbols) symbols := by
  refine ⟨rfl, fun s hs he => ?_⟩
  have hclear := h s hs
  rw [he] at hclear
  exact hclear rfl

/-- A part that is read as a reference is a reference with blanks around it. -/
theorem unforged_of_clear {symbols : List Symbol} (h : ∀ s ∈ symbols, s.Clear)
    {before part after : List Char} {index : Nat} (hpart : Part (write symbols) before part after)
    (href : reference? (trim part) = some index) :
    ∃ front back, Reads before front ∧ Reads (trim part) [.group index] ∧ Reads after back := by
  obtain ⟨front, middle, back, rfl, rfl, rfl, rfl⟩ := hpart.exists_symbols
  have hmiddle : ∀ s ∈ Symbol.trim middle, s.Clear := fun s hs =>
    h s (List.mem_append_left _ (List.mem_append_right _ (mem_of_mem_trim hs)))
  rw [trim_write, reference?_write hmiddle] at href
  have hgroup := Rule.reference?_eq_some_iff.mp href
  refine ⟨front, back, reads_of_clear fun s hs => ?_, ?_, reads_of_clear fun s hs => ?_⟩
  · exact h s (List.mem_append_left _ (List.mem_append_left _ hs))
  · rw [trim_write, ← hgroup]
    exact reads_of_clear hmiddle
  · exact h s (List.mem_append_right _ hs)

/-- The state after each step of the reduction of a rule is intact. -/
theorem intact_of_reached {rule : String} (hrule : Checked rule) {n : Nat} {state : Written}
    (h : Reached rule.toList n state) : Intact rule.toList n state := by
  obtain ⟨origin, rfl, hlegible, hcount⟩ := exists_legible_of_reached hrule h
  have hclear := hlegible.clear hrule.length_le
  have hstep := step_written hclear
  have hreads := reads_of_clear hclear
  exact {
    ascii := ascii_of_legible hlegible
    reading := ⟨origin.text, hreads, fun other hother => hother.unique hreads,
      hlegible.linear.nodup, fun index => (hlegible.linear.holds_iff index).symm⟩
    unforged := fun before part after index => unforged_of_clear hclear
    in_range := by
      rw [hstep, finish_written hclear]
      exact ⟨nofun, fun _ => nofun⟩
    delimiters_eq := by
      intro next hnext
      rw [hstep, Option.some.injEq] at hnext
      obtain ⟨found, hfound, hwritten⟩ := Outcome.map_eq_ok_iff.mp hnext
      obtain ⟨next, rfl, rfl⟩ := Option.map_eq_some_iff.mp hwritten
      exact delimiters_of_next hfound
    steps_eq := (closers_write origin.text).symm ▸ hcount }

end Written

/-- A rule is never refused for a reference. -/
theorem compile_ne_dangling (rule : String) (index : Nat) :
    compile rule ≠ .error (.fault rule (.danglingReference index)) := by
  intro h
  obtain ⟨_, he⟩ | ⟨_, he⟩ | he | ⟨fault, he, hrun⟩ := compile_error_cases h
  · cases he
  · cases he
  · cases he
  · cases he
    exact Reduction.Linear.run_ne_dangling (Reduction.linear_start _) index hrun

/-- **The reduction never goes wrong inside.**  With its references written into the text, the
machine compiles every rule, without a crash, to what the reduction compiles it to, and never finds
a reference dangling; and after each step on a rule that passes the checks its state is intact. -/
theorem written_compile_intact (rule : String) :
    Written.compile rule = some (compile rule) ∧
      (∀ index, compile rule ≠ .error (.fault rule (.danglingReference index))) ∧
      (Checked rule → ∀ n state, Written.Reached rule.toList n state →
        Written.Intact rule.toList n state) :=
  ⟨Written.compile_eq_some rule, compile_ne_dangling rule,
    fun hrule _ _ hreached => Written.intact_of_reached hrule hreached⟩

/-- A reference stands between two digits of the rule, in a text that has grown. -/
theorem written_compile_intact_grown :
    Checked "k, 1[]2" ∧
      Written.Reached "k, 1[]2".toList 1 ⟨"k, 1@0@2".toList, [some ⟨.array [], 1⟩]⟩ ∧
        Written.Intact "k, 1[]2".toList 1 ⟨"k, 1@0@2".toList, [some ⟨.array [], 1⟩]⟩ := by
  have hrule : Checked "k, 1[]2" :=
    ⟨by decide, by decide, fun hblank => absurd (hblank 'k' (by decide)) (by decide)⟩
  have hreached : Written.Reached "k, 1[]2".toList 1 ⟨"k, 1@0@2".toList, [some ⟨.array [], 1⟩]⟩ :=
    .next .start (by rfl)
  exact ⟨hrule, hreached, (written_compile_intact "k, 1[]2").2.2 hrule 1 _ hreached⟩

end Allowlist.Rule

import Allowlist.Proofs.Outcome
import Allowlist.Proofs.Rule.Symbol

/-!
# Proofs.Rule.Entry — the entries that a working text spells

In a working text a group is one reference, so its entries are flat.  `Entry.Spells` is the
grammar of one such entry and `Entry.SpellAll` that of several; the readers of entries accept
these texts and no others (`ofText_eq_ok_iff`, `ofBody_eq_ok_iff`).
-/

namespace Allowlist.Rule

open Allowlist.Rule.Symbol

/-! ### Names -/

theorem keyName?_eq_some_iff {k : List Char} {name : String} :
    Entry.keyName? k = some name ↔ KeyText name k := by
  constructor
  · intro h
    unfold Entry.keyName? at h
    split at h
    · cases h
    · next rest =>
      simp only [ne_eq, ite_eq_iff, reduceCtorEq, and_false, or_false] at h
      obtain ⟨⟨hne, hrest⟩, hname⟩ := h
      cases hname
      have hsplit := List.takeWhile_append_dropWhile (p := isQuotedChar) (l := rest)
      rw [hrest] at hsplit
      have hall : ∀ c ∈ rest.takeWhile isQuotedChar, isQuotedChar c = true :=
        List.all_eq_true.mp List.all_takeWhile
      have hquoted := @KeyText.quoted (String.ofList (rest.takeWhile isQuotedChar))
        (by simpa using hne) (by simpa using hall)
      simpa [hsplit] using hquoted
    · next hne _ =>
      split_ifs at h with hall
      cases h
      have hbare := @KeyText.bare (String.ofList k) (by simpa using hne)
        (by simpa using hall)
      simpa using hbare
  · intro h
    cases h with
    | bare hne hall =>
      cases hk : name.toList with
      | nil => exact absurd hk hne
      | cons c cs =>
        have hc : c ≠ '\'' := by
          rintro rfl
          have hquote := hall '\'' (by simp [hk])
          revert hquote
          decide
        have hcs : (c :: cs).all isNameChar = true := by
          rw [← hk]
          exact List.all_eq_true.mpr hall
        unfold Entry.keyName?
        split
        · next heq => cases heq
        · next heq => exact absurd (List.cons.inj heq).1 hc
        · rw [if_pos hcs, ← hk, String.ofList_toList]
    | quoted hne hall =>
      have htake : (name.toList ++ ['\'']).takeWhile isQuotedChar = name.toList := by
        rw [List.takeWhile_append_of_pos hall]
        simp [show isQuotedChar '\'' = false by decide]
      have hdrop : (name.toList ++ ['\'']).dropWhile isQuotedChar = ['\''] := by
        rw [List.dropWhile_append_of_pos hall]
        simp [show isQuotedChar '\'' = false by decide]
      simp only [Entry.keyName?, htake, hdrop]
      rw [if_pos ⟨hne, trivial⟩, String.ofList_toList]

theorem chars?_eq_some_iff {text : List Symbol} {cs : List Char} :
    Entry.chars? text = some cs ↔ text = ofChars cs := by
  induction text generalizing cs with
  | nil => cases cs <;> simp [Entry.chars?]
  | cons s text ih =>
    cases s with
    | group i => cases cs <;> simp [Entry.chars?]
    | char c => cases cs <;> simp [Entry.chars?, ih, and_comm]

theorem name?_eq_some_iff {text : List Symbol} {name : String} :
    Entry.name? text = some name ↔ ∃ k, text = ofChars k ∧ KeyText name k := by
  simp only [Entry.name?, Option.bind_eq_some_iff, chars?_eq_some_iff, keyName?_eq_some_iff]

theorem reference?_eq_some_iff {text : List Symbol} {index : Nat} :
    Entry.reference? text = some index ↔ text = [.group index] := by
  unfold Entry.reference?
  split
  · simp
  · next h => simpa using h index

theorem reference?_ofChars (cs : List Char) : Entry.reference? (ofChars cs) = none := by
  cases cs <;> rfl

/-! ### One entry -/

/-- The texts of an entry between two commas. -/
inductive Entry.Spells : Entry → List Symbol → Prop
  | key {name : String} {p k q : List Char} :
      Blank p → KeyText name k → Blank q → Spells (.key name) (ofChars (p ++ k ++ q))
  | keyed {name : String} {index : Nat} {p k q r s : List Char} :
      Blank p → KeyText name k → Blank q → Blank r → Blank s →
      Spells (.keyed name index) (ofChars (p ++ k ++ q ++ ':' :: r) ++ .group index :: ofChars s)
  | group {index : Nat} {p q : List Char} :
      Blank p → Blank q → Spells (.group index) (ofChars p ++ .group index :: ofChars q)

/-- The function that finds the colon of an entry. -/
def colon? (s : Symbol) : Option Unit := if s = .char ':' then some () else none

theorem colon?_eq_none {s : Symbol} (h : s ≠ .char ':') : colon? s = none := if_neg h

theorem KeyText.ne_colon {name : String} {k : List Char} (h : KeyText name k) {c : Char}
    (hc : c ∈ k) : c ≠ ':' := by
  rintro rfl
  rcases h.char_cases hc with hc | hc
  · revert hc
    decide
  · revert hc
    decide

theorem Blank.ne_colon {p : List Char} (h : Blank p) {c : Char} (hc : c ∈ p) : c ≠ ':' := by
  rw [h c hc]
  decide

theorem KeyText.trim_eq {name : String} {p k q : List Char} (hp : Blank p) (h : KeyText name k)
    (hq : Blank q) : trim (ofChars (p ++ k ++ q)) = ofChars k := by
  rw [ofChars_append, ofChars_append]
  refine trim_pad hp hq ?_ ?_
  · rw [ofChars, List.head?_map]
    simpa using h.head?_ne_blank
  · rw [ofChars, List.getLast?_map]
    simpa using h.getLast?_ne_blank

/-- A reference between blanks is trimmed to itself. -/
theorem trim_group {p q : List Char} (hp : Blank p) (hq : Blank q) (index : Nat) :
    trim (ofChars p ++ .group index :: ofChars q) = [.group index] := by
  have h := @trim_pad p q [.group index] hp hq (by simp) (by simp)
  simpa using h

/-- An entry without its surrounding blanks. -/
theorem ofTrimmed?_cases {text : List Symbol} {entry : Entry}
    (h : Entry.ofTrimmed? text = some entry) : entry.Spells text := by
  unfold Entry.ofTrimmed? at h
  split at h
  · next label _ target hcut =>
    simp only [Option.pure_def, Option.bind_eq_bind, Option.bind_eq_some_iff, Option.some.injEq,
      name?_eq_some_iff, reference?_eq_some_iff] at h
    obtain ⟨name, ⟨k, hlabel, hk⟩, index, htarget, rfl⟩ := h
    obtain ⟨c, htext, hc, -⟩ := Cut.eq_of_first? hcut
    have hcolon : c = .char ':' := by
      by_contra hne
      simp [hne] at hc
    obtain ⟨p, q, hp, hq, hl⟩ := exists_pad label
    obtain ⟨r, s, hr, hs, ht⟩ := exists_pad target
    rw [hlabel] at hl
    rw [htarget] at ht
    rw [htext, hl, ht, hcolon]
    have hspells : (Entry.keyed name index).Spells _ := .keyed hp hk hq hr hs
    simpa [ofChars_append] using hspells
  · split at h
    · next index href =>
      cases h
      rw [reference?_eq_some_iff.mp href]
      exact .group Blank.nil Blank.nil
    · obtain ⟨name, hname, rfl⟩ := Option.map_eq_some_iff.mp h
      obtain ⟨k, rfl, hk⟩ := name?_eq_some_iff.mp hname
      have hspells := Entry.Spells.key Blank.nil hk Blank.nil
      simpa using hspells

/-- Blanks around an entry belong to it. -/
theorem Entry.Spells.pad {entry : Entry} {text : List Symbol} (h : entry.Spells text)
    {p q : List Char} (hp : Blank p) (hq : Blank q) :
    entry.Spells (ofChars p ++ text ++ ofChars q) := by
  cases h with
  | key hp' hk hq' =>
    have hspells := Entry.Spells.key (hp.append hp') hk (hq'.append hq)
    simpa [ofChars_append] using hspells
  | @keyed name index _ _ _ _ _ hp' hk hq' hr hs =>
    have hspells : (Entry.keyed name index).Spells _ :=
      .keyed (hp.append hp') hk hq' hr (hs.append hq)
    simpa [ofChars_append] using hspells
  | @group index _ _ hp' hq' =>
    have hspells : (Entry.group index).Spells _ := .group (hp.append hp') (hq'.append hq)
    simpa [ofChars_append] using hspells

theorem ofTrimmed?_trim_of_spells {entry : Entry} {text : List Symbol} (h : entry.Spells text) :
    Entry.ofTrimmed? (trim text) = some entry := by
  cases h with
  | @key name p k q hp hk hq =>
    have hcut : Cut.first? colon? (ofChars k) = none := Cut.first?_eq_none_iff.mpr fun s hs => by
      obtain ⟨c, hc, rfl⟩ := List.mem_map.mp hs
      exact colon?_eq_none (by simpa using hk.ne_colon hc)
    have hname : Entry.name? (ofChars k) = some name := name?_eq_some_iff.mpr ⟨k, rfl, hk⟩
    rw [hk.trim_eq hp hq, Entry.ofTrimmed?]
    unfold colon? at hcut
    simp only [hcut, reference?_ofChars, hname, Option.map_some]
  | @keyed name index p k q r s hp hk hq hr hs =>
    -- the blanks at the two ends go, those around the colon stay
    have htrim : trim (ofChars (p ++ k ++ q ++ ':' :: r) ++ .group index :: ofChars s) =
        ofChars (k ++ q) ++ .char ':' :: (ofChars r ++ [.group index]) := by
      have hpad := @trim_pad p s (ofChars (k ++ q) ++ .char ':' :: (ofChars r ++ [.group index]))
        hp hs ?_ ?_
      · simpa [ofChars_append] using hpad
      · cases hk' : k with
        | nil => exact absurd hk' hk.ne_nil
        | cons c cs => simpa [hk'] using hk.head?_ne_blank
      · rw [← List.cons_append, ← List.append_assoc, List.getLast?_concat]
        simp
    have hcut : Cut.first? colon? (ofChars (k ++ q) ++ .char ':' :: (ofChars r ++ [.group index])) =
        some (ofChars (k ++ q), (), ofChars r ++ [.group index]) := by
      refine Cut.first?_append_cons (fun s hs => ?_) (if_pos rfl)
      obtain ⟨c, hc, rfl⟩ := List.mem_map.mp hs
      refine colon?_eq_none fun he => ?_
      rcases List.mem_append.mp hc with hc | hc
      · exact hk.ne_colon hc (Symbol.char.inj he)
      · exact hq.ne_colon hc (Symbol.char.inj he)
    have hname : Entry.name? (trim (ofChars (k ++ q))) = some name := by
      have hk' := hk.trim_eq (p := []) (by simp [Blank]) hq
      rw [List.nil_append] at hk'
      exact name?_eq_some_iff.mpr ⟨k, hk', hk⟩
    have hgroup : Entry.reference? (trim (ofChars r ++ [.group index])) = some index := by
      rw [show ofChars r ++ [Symbol.group index] = ofChars r ++ .group index :: ofChars [] from rfl,
        trim_group hr (by simp [Blank])]
      rfl
    rw [htrim, Entry.ofTrimmed?]
    unfold colon? at hcut
    simp only [hcut, hname, hgroup, Option.bind_eq_bind, Option.bind_some, Option.pure_def]
  | @group index p q hp hq =>
    rw [trim_group hp hq]
    rfl

theorem ofText_eq_ok_iff {text : List Symbol} {entry : Entry} :
    Entry.ofText text = .ok entry ↔ entry.Spells text := by
  unfold Entry.ofText
  constructor
  · intro h
    dsimp only at h
    split at h
    · next found hfound =>
      cases h
      obtain ⟨p, q, hp, hq, htext⟩ := exists_pad text
      rw [htext]
      exact (ofTrimmed?_cases hfound).pad hp hq
    · cases h
  · intro h
    simp only [ofTrimmed?_trim_of_spells h]

/-- The symbols of an entry are references, colons, and characters of written names. -/
theorem Entry.Spells.symbol_cases {entry : Entry} {text : List Symbol} (h : entry.Spells text)
    {s : Symbol} (hs : s ∈ text) :
    (∃ index, s = .group index) ∨
      ∃ c, s = .char c ∧ (c = ':' ∨ c = '\'' ∨ isQuotedChar c = true) := by
  have hchar : ∀ {cs : List Char}, (∀ c ∈ cs, c = ':' ∨ c = '\'' ∨ isQuotedChar c = true) →
      s ∈ ofChars cs → ∃ c, s = .char c ∧ (c = ':' ∨ c = '\'' ∨ isQuotedChar c = true) := by
    intro cs hcs hmem
    obtain ⟨c, hc, rfl⟩ := List.mem_map.mp hmem
    exact ⟨c, rfl, hcs c hc⟩
  have hblank : ∀ {p : List Char}, Blank p →
      ∀ c ∈ p, c = ':' ∨ c = '\'' ∨ isQuotedChar c = true := by
    intro p hp c hc
    rw [hp c hc]
    decide
  cases h with
  | key hp hk hq =>
    refine .inr (hchar (fun c hc => ?_) hs)
    rcases List.mem_append.mp hc with hc | hc
    · rcases List.mem_append.mp hc with hc | hc
      · exact hblank hp c hc
      · exact .inr (hk.char_cases hc)
    · exact hblank hq c hc
  | keyed hp hk hq hr hs' =>
    rcases List.mem_append.mp hs with hs | hs
    · refine .inr (hchar (fun c hc => ?_) hs)
      simp only [List.append_assoc, List.mem_append, List.mem_cons] at hc
      rcases hc with hc | hc | hc | rfl | hc
      · exact hblank hp c hc
      · exact .inr (hk.char_cases hc)
      · exact hblank hq c hc
      · exact .inl rfl
      · exact hblank hr c hc
    · rcases List.mem_cons.mp hs with rfl | hs
      · exact .inl ⟨_, rfl⟩
      · exact .inr (hchar (hblank hs') hs)
  | group hp hq =>
    rcases List.mem_append.mp hs with hs | hs
    · exact .inr (hchar (hblank hp) hs)
    · rcases List.mem_cons.mp hs with rfl | hs
      · exact .inl ⟨_, rfl⟩
      · exact .inr (hchar (hblank hq) hs)

theorem Entry.Spells.not_comma {entry : Entry} {text : List Symbol} (h : entry.Spells text) :
    .char ',' ∉ text := by
  intro hs
  rcases h.symbol_cases hs with ⟨index, he⟩ | ⟨c, he, hc⟩
  · cases he
  · cases he
    revert hc
    decide

/-! ### Bodies -/

/-- The texts of one or more entries with commas between them. -/
inductive Entry.SpellAll : List Entry → List Symbol → Prop
  | one {entry : Entry} {text : List Symbol} : entry.Spells text → SpellAll [entry] text
  | cons {entry : Entry} {text : List Symbol} {entries : List Entry} {rest : List Symbol} :
      entry.Spells text → SpellAll entries rest →
      SpellAll (entry :: entries) (text ++ .char ',' :: rest)

theorem Entry.SpellAll.of_forall₂ {entries : List Entry} {texts : List (List Symbol)}
    (h : List.Forall₂ (fun text entry => Entry.Spells entry text) texts entries)
    (hne : texts ≠ []) : SpellAll entries ([.char ','].intercalate texts) := by
  induction h with
  | nil => exact absurd rfl hne
  | @cons text entry texts entries hfirst hrest ih =>
    cases hrest with
    | nil => simpa using SpellAll.one hfirst
    | cons hsecond hmore =>
      rw [List.intercalate_cons_cons, List.append_assoc]
      exact .cons hfirst (ih (by simp))

theorem not_comma_of_blank {p : List Char} (hp : Blank p) : Symbol.char ',' ∉ ofChars p := by
  intro hmem
  obtain ⟨c, hc, he⟩ := List.mem_map.mp hmem
  rw [hp c hc] at he
  revert he
  decide

/-- The body of a group is blank, or it spells its entries. -/
theorem ofBody_eq_ok_iff {body : List Symbol} {entries : List Entry} :
    Entry.ofBody body = .ok entries ↔
      (entries = [] ∧ trim body = []) ∨ Entry.SpellAll entries body := by
  unfold Entry.ofBody
  constructor
  · intro h
    split_ifs at h with hblank
    · cases h
      exact .inl ⟨rfl, hblank⟩
    · have hall := Outcome.mapM_eq_ok_iff.mp h
      simp only [ofText_eq_ok_iff] at hall
      have hspell := Entry.SpellAll.of_forall₂ hall (List.splitOn_ne_nil _ _)
      rw [List.intercalate_splitOn] at hspell
      exact .inr hspell
  · rintro (⟨rfl, hblank⟩ | h)
    · rw [if_pos hblank]
    · have hsplit : (body.splitOn (.char ',')).mapM Entry.ofText = .ok entries := by
        induction h with
        | one hfirst =>
          rw [List.splitOn_eq_singleton hfirst.not_comma]
          exact Outcome.mapM_eq_ok_iff.mpr (.cons (ofText_eq_ok_iff.mpr hfirst) .nil)
        | cons hfirst hrest ih =>
          rw [List.splitOn_append_cons_self_of_not_mem hfirst.not_comma]
          exact Outcome.mapM_eq_ok_iff.mpr
            (.cons (ofText_eq_ok_iff.mpr hfirst) (Outcome.mapM_eq_ok_iff.mp ih))
      rw [if_neg, hsplit]
      -- a blank body would spell no entry
      intro hblank
      cases h with
      | one hfirst =>
        have htrim := ofTrimmed?_trim_of_spells hfirst
        rw [hblank] at htrim
        cases htrim
      | cons hfirst hrest =>
        obtain ⟨p, hp, htext⟩ := trim_eq_nil_iff.mp hblank
        exact not_comma_of_blank hp (by rw [← htext]; simp)

/-! ### Blanks around a body -/

theorem splitOn_blank_append {p : List Char} (hp : Blank p) (text : List Symbol) :
    (ofChars p ++ text).splitOn (.char ',') =
      (text.splitOn (.char ',')).modifyHead (ofChars p ++ ·) := by
  induction p with
  | nil => cases hsplit : text.splitOn (.char ',') <;> simp [hsplit]
  | cons c p ih =>
    obtain ⟨hc, hblank⟩ := List.forall_mem_cons.mp hp
    rw [ofChars_cons, List.cons_append, List.splitOn_cons_eq_if_modifyHead,
      if_neg (by simp [hc]), ih hblank]
    cases text.splitOn (.char ',') <;> rfl

theorem forall₂_splitOn_append_blank {q : List Char} (hq : Blank q) (text : List Symbol) :
    List.Forall₂ (fun piece padded => ∃ r, Blank r ∧ padded = piece ++ ofChars r)
      (text.splitOn (.char ',')) ((text ++ ofChars q).splitOn (.char ',')) := by
  induction text with
  | nil =>
    rw [List.nil_append, List.splitOn_eq_singleton (not_comma_of_blank hq)]
    exact .cons ⟨q, hq, rfl⟩ .nil
  | cons s text ih =>
    rw [List.cons_append, List.splitOn_cons_eq_if_modifyHead, List.splitOn_cons_eq_if_modifyHead]
    split_ifs with hs
    · exact .cons ⟨[], Blank.nil, rfl⟩ ih
    · generalize text.splitOn (.char ',') = pieces, (text ++ ofChars q).splitOn (.char ',') = padded
        at ih
      cases ih with
      | nil => exact .nil
      | cons hfirst hrest =>
        obtain ⟨r, hr, he⟩ := hfirst
        exact .cons ⟨r, hr, by rw [he, List.cons_append]⟩ hrest

/-- Without the blanks around it a body has the same entries, but for blanks around them. -/
theorem forall₂_splitOn_trim (body : List Symbol) :
    List.Forall₂ (fun piece padded => trim piece = trim padded)
      ((trim body).splitOn (.char ',')) (body.splitOn (.char ',')) := by
  obtain ⟨p, q, hp, hq, hbody⟩ := exists_pad body
  have hback := forall₂_splitOn_append_blank hq (trim body)
  have hfront := splitOn_blank_append hp (trim body ++ ofChars q)
  rw [← List.append_assoc, ← hbody] at hfront
  rw [hfront]
  have htrim : ∀ {piece padded : List Symbol}, (∃ r, Blank r ∧ padded = piece ++ ofChars r) →
      trim piece = trim padded := by
    rintro piece padded ⟨r, hr, rfl⟩
    exact (trim_append_blanks Blank.nil hr piece).symm
  generalize (trim body).splitOn (.char ',') = pieces,
    (trim body ++ ofChars q).splitOn (.char ',') = padded at hback
  cases hback with
  | nil => exact .nil
  | @cons piece padded _ _ hfirst hrest =>
    refine .cons ?_ (hrest.imp fun _ _ h => htrim h)
    have hpad := trim_append_blanks hp Blank.nil padded
    rw [ofChars_nil, List.append_nil] at hpad
    rw [htrim hfirst, hpad]

theorem ofText_congr {text text' : List Symbol} (h : trim text = trim text') :
    Entry.ofText text = Entry.ofText text' := by
  rw [Entry.ofText, Entry.ofText, h]

/-- Blanks around a body do not matter. -/
theorem ofBody_trim (body : List Symbol) : Entry.ofBody (trim body) = Entry.ofBody body := by
  have hentries : ((trim body).splitOn (.char ',')).mapM Entry.ofText =
      (body.splitOn (.char ',')).mapM Entry.ofText := by
    have hall := forall₂_splitOn_trim body
    generalize (trim body).splitOn (.char ',') = pieces, body.splitOn (.char ',') = padded at hall
    induction hall with
    | nil => rfl
    | cons hfirst _ ih => rw [List.mapM_cons, List.mapM_cons, ofText_congr hfirst, ih]
  rw [Entry.ofBody, Entry.ofBody, trim_trim, hentries]

/-! ### Delimiters -/

theorem Entry.Spells.no_delimiter {entry : Entry} {text : List Symbol} (h : entry.Spells text) :
    ∀ s ∈ text, s.closes? = none ∧ s.opens? = none := by
  intro s hs
  rcases h.symbol_cases hs with ⟨index, rfl⟩ | ⟨c, rfl, hc⟩
  · exact ⟨rfl, rfl⟩
  · have hne : ∀ d, (d = ':' ∨ d = '\'' ∨ isQuotedChar d = true) = false → c ≠ d :=
      fun d hd he => by simp [← he, hc] at hd
    simp [closes?, opens?, GroupKind.ofCloser?, GroupKind.ofOpener?, hne '\x7b' (by decide),
      hne '\x7d' (by decide), hne '[' (by decide), hne ']' (by decide)]

theorem Entry.SpellAll.no_delimiter {entries : List Entry} {text : List Symbol}
    (h : SpellAll entries text) : ∀ s ∈ text, s.closes? = none ∧ s.opens? = none := by
  induction h with
  | one hfirst => exact hfirst.no_delimiter
  | cons hfirst hrest ih =>
    intro s hs
    rcases List.mem_append.mp hs with hs | hs
    · exact hfirst.no_delimiter s hs
    · rcases List.mem_cons.mp hs with rfl | hs
      · exact ⟨rfl, rfl⟩
      · exact ih s hs

end Allowlist.Rule

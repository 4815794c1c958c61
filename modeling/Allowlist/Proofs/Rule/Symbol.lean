import Allowlist.Proofs.Cut
import Allowlist.Proofs.Rule.Grammar
import Mathlib.Tactic.SplitIfs

/-!
# Proofs.Rule.Symbol — blanks and groups in a working text

`trim` takes away the blanks around a text and nothing else.  `innermost?` finds a group exactly
when a closing delimiter has no other before it and the nearest opener before it is of its kind
(`innermost?_eq_some_iff`), and it finds that all groups are gone exactly when no delimiter is
left.
-/

namespace Allowlist.Rule.Symbol

theorem ofChars_append (p q : List Char) : ofChars (p ++ q) = ofChars p ++ ofChars q :=
  List.map_append

@[simp] theorem ofChars_nil : ofChars [] = [] := rfl

@[simp] theorem ofChars_cons (c : Char) (cs : List Char) :
    ofChars (c :: cs) = char c :: ofChars cs := rfl

/-! ### Blanks -/

theorem eq_ofChars_of_blank {text : List Symbol} (h : ∀ s ∈ text, s = char ' ') :
    ∃ p, Blank p ∧ text = ofChars p := by
  refine ⟨List.replicate text.length ' ', fun c hc => List.eq_of_mem_replicate hc, ?_⟩
  rw [List.eq_replicate_of_mem h, ofChars, List.map_replicate, List.length_replicate]

theorem dropWhile_blank {p : List Char} (hp : Blank p) (text : List Symbol) :
    (ofChars p ++ text).dropWhile (· == char ' ') = text.dropWhile (· == char ' ') := by
  refine List.dropWhile_append_of_pos fun s hs => ?_
  obtain ⟨c, hc, rfl⟩ := List.mem_map.mp hs
  simp [hp c hc]

theorem dropWhile_eq_self {text : List Symbol} (h : text.head? ≠ some (char ' ')) :
    text.dropWhile (· == char ' ') = text := by
  cases text with
  | nil => rfl
  | cons s text =>
    have hs : (s == char ' ') = false := beq_false_of_ne fun he => h (by simp [he])
    simp [hs]

/-- Blanks around a text that neither starts nor ends with one are trimmed. -/
theorem trim_pad {p q : List Char} {core : List Symbol} (hp : Blank p) (hq : Blank q)
    (hfirst : core.head? ≠ some (char ' ')) (hlast : core.getLast? ≠ some (char ' ')) :
    trim (ofChars p ++ core ++ ofChars q) = core := by
  have hqr : Blank q.reverse := fun c hc => hq c (List.mem_reverse.mp hc)
  have hrev : (ofChars q).reverse = ofChars q.reverse := List.map_reverse.symm
  unfold trim
  cases core with
  | nil =>
    rw [List.append_nil, dropWhile_blank hp, ← List.append_nil (ofChars q), dropWhile_blank hq]
    rfl
  | cons s core =>
    have hfront : (ofChars p ++ (s :: core ++ ofChars q)).dropWhile (· == char ' ') =
        s :: core ++ ofChars q := by
      rw [dropWhile_blank hp]
      exact dropWhile_eq_self (by simpa using hfirst)
    have hback : (ofChars q.reverse ++ (s :: core).reverse).dropWhile (· == char ' ') =
        (s :: core).reverse := by
      rw [dropWhile_blank hqr]
      exact dropWhile_eq_self (by rwa [List.head?_reverse])
    rw [List.append_assoc, hfront, List.reverse_append, hrev, hback, List.reverse_reverse]

/-- A text is its trimmed core between blanks. -/
theorem exists_pad (text : List Symbol) :
    ∃ p q, Blank p ∧ Blank q ∧ text = ofChars p ++ trim text ++ ofChars q := by
  have hblank : ∀ l : List Symbol, ∀ s ∈ l.takeWhile (· == char ' '), s = char ' ' :=
    fun l s hs => by simpa using List.all_eq_true.mp List.all_takeWhile s hs
  obtain ⟨p, hp, hfront⟩ := eq_ofChars_of_blank (hblank text)
  obtain ⟨q, hq, hback⟩ :=
    eq_ofChars_of_blank (hblank (text.dropWhile (· == char ' ')).reverse)
  refine ⟨p, q.reverse, hp, fun c hc => hq c (List.mem_reverse.mp hc), ?_⟩
  have hcore := List.takeWhile_append_dropWhile (p := (· == char ' '))
    (l := (text.dropWhile (· == char ' ')).reverse)
  have hrest := congrArg List.reverse hcore
  rw [List.reverse_reverse, List.reverse_append, hback] at hrest
  have hreverse : ofChars q.reverse = (ofChars q).reverse := List.map_reverse
  rw [trim, List.append_assoc, ← hfront, hreverse, hrest, List.takeWhile_append_dropWhile]

theorem getLast?_trim (text : List Symbol) : (trim text).getLast? ≠ some (char ' ') := by
  rw [trim, List.getLast?_reverse]
  intro h
  have hnot := List.head?_dropWhile_not (· == char ' ') (text.dropWhile (· == char ' ')).reverse
  simp [h] at hnot

theorem head?_trim (text : List Symbol) : (trim text).head? ≠ some (char ' ') := by
  intro h
  have hnot := List.head?_dropWhile_not (· == char ' ') text
  have hprefix : trim text <+: text.dropWhile (· == char ' ') := by
    rw [trim, ← List.reverse_suffix, List.reverse_reverse]
    exact List.dropWhile_suffix _
  obtain ⟨rest, hrest⟩ := hprefix
  rw [← hrest, List.head?_append, h] at hnot
  simp at hnot

/-- Blanks around a text do not change what is left of it. -/
theorem trim_append_blanks {p q : List Char} (hp : Blank p) (hq : Blank q) (text : List Symbol) :
    trim (ofChars p ++ text ++ ofChars q) = trim text := by
  obtain ⟨p', q', hp', hq', ht⟩ := exists_pad text
  have h := trim_pad (hp.append hp') (hq'.append hq) (head?_trim text) (getLast?_trim text)
  calc trim (ofChars p ++ text ++ ofChars q)
      = trim (ofChars p ++ (ofChars p' ++ trim text ++ ofChars q') ++ ofChars q) := by rw [← ht]
    _ = trim (ofChars (p ++ p') ++ trim text ++ ofChars (q' ++ q)) := by
      simp only [ofChars_append, List.append_assoc]
    _ = trim text := h

theorem trim_trim (text : List Symbol) : trim (trim text) = trim text := by
  obtain ⟨p, q, hp, hq, ht⟩ := exists_pad text
  have h := trim_append_blanks hp hq (trim text)
  rw [← ht] at h
  exact h.symm

theorem trim_eq_nil_iff {text : List Symbol} :
    trim text = [] ↔ ∃ p, Blank p ∧ text = ofChars p := by
  constructor
  · intro h
    obtain ⟨p, q, hp, hq, ht⟩ := exists_pad text
    rw [h, List.append_nil, ← ofChars_append] at ht
    exact ⟨p ++ q, hp.append hq, ht⟩
  · rintro ⟨p, hp, rfl⟩
    have h := trim_append_blanks hp Blank.nil []
    simpa [trim] using h

/-! ### Innermost groups -/

theorem opens?_char_opener (kind : GroupKind) : opens? (char kind.opener) = some kind := by
  cases kind <;> rfl

theorem closes?_char_closer (kind : GroupKind) : closes? (char kind.closer) = some kind := by
  cases kind <;> rfl

theorem closes?_char_opener (kind : GroupKind) : closes? (char kind.opener) = none := by
  cases kind <;> rfl

theorem eq_char_opener {s : Symbol} {kind : GroupKind} (h : s.opens? = some kind) :
    s = char kind.opener := by
  cases s with
  | group i => cases h
  | char c =>
    rw [opens?, GroupKind.ofOpener?] at h
    split_ifs at h with h1 h2 <;> cases h
    · rw [h1]; rfl
    · rw [h2]; rfl

theorem eq_char_closer {s : Symbol} {kind : GroupKind} (h : s.closes? = some kind) :
    s = char kind.closer := by
  cases s with
  | group i => cases h
  | char c =>
    rw [closes?, GroupKind.ofCloser?] at h
    split_ifs at h with h1 h2 <;> cases h
    · rw [h1]; rfl
    · rw [h2]; rfl

/-- The text of a working text in which the group is marked. -/
def Innermost.text (group : Innermost) : List Symbol :=
  group.before ++ char group.kind.opener :: (group.body ++ char group.kind.closer :: group.after)

/-- The innermost group is closed first and holds no delimiter. -/
structure Innermost.Valid (group : Innermost) : Prop where
  before : ∀ s ∈ group.before, s.closes? = none
  body_closes : ∀ s ∈ group.body, s.closes? = none
  body_opens : ∀ s ∈ group.body, s.opens? = none

theorem innermost?_eq_some_iff {text : List Symbol} {group : Innermost} :
    innermost? text = .ok (some group) ↔ text = group.text ∧ group.Valid := by
  constructor
  · intro h
    unfold innermost? at h
    split at h
    · split at h <;> cases h
    · next front closed after hfirst =>
      split at h
      · cases h
      · next before opened body hlast =>
        split_ifs at h with he
        cases h
        obtain ⟨c, rfl, hc, hfront⟩ := Cut.eq_of_first? hfirst
        obtain ⟨o, rfl, ho, hbody⟩ := Cut.eq_of_last? hlast
        have hsub : ∀ s, s ∈ before ∨ s ∈ body → s.closes? = none := fun s hs =>
          hfront s (List.mem_append.mpr (hs.imp_right fun hs => List.mem_cons_of_mem _ hs))
        rw [eq_char_closer hc, eq_char_opener ho, he]
        refine ⟨?_, fun s hs => hsub s (.inl hs), fun s hs => hsub s (.inr hs), hbody⟩
        simp only [Innermost.text, List.append_assoc, List.cons_append]
  · rintro ⟨rfl, hbefore, hcloses, hopens⟩
    obtain ⟨before, kind, body, after⟩ := group
    have hfront : ∀ s ∈ before ++ char kind.opener :: body, s.closes? = none := by
      intro s hs
      rcases List.mem_append.mp hs with hs | hs
      · exact hbefore s hs
      · rcases List.mem_cons.mp hs with rfl | hs
        · exact closes?_char_opener kind
        · exact hcloses s hs
    have htext : Innermost.text ⟨before, kind, body, after⟩ =
        (before ++ char kind.opener :: body) ++ char kind.closer :: after := by
      simp only [Innermost.text, List.append_assoc, List.cons_append]
    rw [htext, innermost?, Cut.first?_append_cons hfront (closes?_char_closer kind)]
    simp only [Cut.last?_append_cons (opens?_char_opener kind) hopens, if_true]

theorem innermost?_eq_none_iff {text : List Symbol} :
    innermost? text = .ok none ↔ ∀ s ∈ text, s.closes? = none ∧ s.opens? = none := by
  unfold innermost?
  cases hfirst : Cut.first? closes? text with
  | none =>
    have hc := Cut.first?_eq_none_iff.mp hfirst
    cases hfind : text.findSome? opens? with
    | none =>
      have ho := List.findSome?_eq_none_iff.mp hfind
      exact iff_of_true rfl fun s hs => ⟨hc s hs, ho s hs⟩
    | some kind =>
      obtain ⟨s, hs, hk⟩ := List.exists_of_findSome?_eq_some hfind
      refine iff_of_false (by simp) fun h => ?_
      simp [(h s hs).2] at hk
  | some cut =>
    obtain ⟨front, closed, after⟩ := cut
    obtain ⟨c, rfl, hc, -⟩ := Cut.eq_of_first? hfirst
    refine iff_of_false ?_ fun h => ?_
    · cases hlast : Cut.last? opens? front with
      | none => simp [hlast]
      | some found =>
        simp only [hlast]
        split_ifs <;> simp
    · simp [(h c (by simp)).1] at hc

/-- What goes wrong where a group is looked for is about delimiters. -/
theorem innermost?_error_cases {text : List Symbol} {fault : Fault}
    (h : innermost? text = .error fault) :
    (∃ delimiter, fault = .unbalanced delimiter) ∨
      ∃ opener closer, fault = .mismatched opener closer := by
  unfold innermost? at h
  split at h
  · split at h <;> cases h
    exact .inl ⟨_, rfl⟩
  · split at h
    · cases h
      exact .inl ⟨_, rfl⟩
    · split_ifs at h
      cases h
      exact .inr ⟨_, _, rfl⟩

end Allowlist.Rule.Symbol

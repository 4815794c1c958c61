import Allowlist.Proofs.Rule.Reduction

/-!
# Proofs.Rule.Completeness — what derives from the grammar is accepted

Along a derivation each text of the grammar is reduced where it stands: `Reduces` says so in any
text around it that does not close a group before it.  Only slots behind those that are there are
filled, so entries reduced one after the other do not disturb each other, and what they refer to
can be read whatever the other slots hold (`Supplies`).
-/

namespace Allowlist.Rule

open Allowlist.Rule.Symbol

/-! ### Slots behind the others -/

theorem Slots.take_behind (slots junk tail : Slots) (parked : Parked) :
    (slots ++ (junk ++ [some parked]) ++ tail).take (slots.length + junk.length) =
      .ok (parked, slots ++ (junk ++ [none]) ++ tail) := by
  have hassoc : ∀ last : Option Parked,
      slots ++ (junk ++ [last]) ++ tail = (slots ++ junk) ++ last :: tail := by simp
  rw [Slots.take_eq_ok_iff, hassoc, hassoc, ← List.length_append]
  refine ⟨List.getElem?_append_right le_rfl |>.trans (by simp), ?_⟩
  rw [List.set_append_right _ _ le_rfl, Nat.sub_self, List.set_cons_zero]

theorem Slots.ReadAll.append {slots mid last : Slots} {entries more : List Entry}
    {parts others : List (Option String × Parked)} (h : slots.ReadAll entries parts mid)
    (hmore : mid.ReadAll more others last) :
    slots.ReadAll (entries ++ more) (parts ++ others) last := by
  induction h with
  | nil => exact hmore
  | cons hread _ ih => exact .cons hread (ih hmore)

/-- Behind `count` slots, whatever they hold, the new ones hold what the entries refer to. -/
def Supplies (count : Nat) (new : Slots) (entries : List Entry)
    (shapes : List (Option String × Shape)) : Prop :=
  ∀ slots tail : Slots, slots.length = count →
    ∃ parts new', List.length new' = new.length ∧ Group.shapesOf parts = shapes ∧
      (slots ++ new ++ tail).ReadAll entries parts (slots ++ new' ++ tail)

namespace Supplies

theorem nil (count : Nat) : Supplies count [] [] [] :=
  fun _ _ _ => ⟨[], [], rfl, rfl, .nil⟩

theorem key (count : Nat) (name : String) :
    Supplies count [] [.key name] [(some name, .key)] :=
  fun _ _ _ => ⟨[(some name, .key)], [], rfl, rfl, .cons rfl .nil⟩

theorem keyed (count : Nat) (junk : Slots) (name : String) (parked : Parked) :
    Supplies count (junk ++ [some parked]) [.keyed name (count + junk.length)]
      [(some name, parked.shape)] := by
  rintro slots tail rfl
  refine ⟨[(some name, parked)], junk ++ [none], by simp, rfl, .cons ?_ .nil⟩
  rw [Slots.read, Slots.take_behind]
  rfl

theorem group (count : Nat) (junk : Slots) (parked : Parked) :
    Supplies count (junk ++ [some parked]) [.group (count + junk.length)]
      [(none, parked.shape)] := by
  rintro slots tail rfl
  refine ⟨[(none, parked)], junk ++ [none], by simp, rfl, .cons ?_ .nil⟩
  rw [Slots.read, Slots.take_behind]
  rfl

theorem cons {count : Nat} {new more : Slots} {entry : Entry} {entries : List Entry}
    {shape : Option String × Shape} {shapes : List (Option String × Shape)}
    (hfirst : Supplies count new [entry] [shape])
    (hrest : Supplies (count + new.length) more entries shapes) :
    Supplies count (new ++ more) (entry :: entries) (shape :: shapes) := by
  intro slots tail hcount
  obtain ⟨parts, new', hlength, hshape, hread⟩ := hfirst slots (more ++ tail) hcount
  obtain ⟨others, more', hmore, hshapes, hothers⟩ :=
    hrest (slots ++ new') tail (by rw [List.length_append, hcount, hlength])
  refine ⟨parts ++ others, new' ++ more', by simp [hlength, hmore], ?_, ?_⟩
  · rw [Group.shapesOf, List.map_append]
    exact congrArg₂ (· ++ ·) hshape hshapes
  · have hall := Slots.ReadAll.append (by simpa using hread) hothers
    simpa using hall

/-- Groups are built from what is supplied. -/
theorem build [Shape.MemberOrder] {slots new : Slots} {kind : GroupKind} {text : List Symbol}
    {entries : List Entry} {shapes : List (Option String × Shape)} {s : Shape}
    (h : Supplies slots.length new entries shapes) (hs : (slots ++ new).Exact)
    (hbody : Entry.ofBody text = .ok entries) (hshape : groupShape? kind shapes = some s)
    (hdepth : s.depth ≤ maxDepth) :
    ∃ new', Group.build kind text (slots ++ new) = .ok (⟨s, s.depth⟩, slots ++ new') := by
  obtain ⟨parts, new', -, rfl, hread⟩ := h slots [] rfl
  rw [List.append_nil, List.append_nil] at hread
  exact ⟨new', (Group.build_eq_ok_iff hs).mpr ⟨entries, parts, hbody, hread, hshape, rfl, hdepth⟩⟩

end Supplies

/-! ### Texts in place -/

variable [Shape.MemberOrder]

namespace Reduction

/-- Wherever no group is closed before it, the text reduces to the symbols. -/
def Reduces (chars : List Char) (slots : Slots) (text : List Symbol) (new : Slots) : Prop :=
  ∀ before after, (∀ s ∈ before, closes? s = none) →
    Steps ⟨before ++ ofChars chars ++ after, slots⟩ ⟨before ++ text ++ after, slots ++ new⟩

namespace Reduces

theorem refl (chars : List Char) (slots : Slots) : Reduces chars slots (ofChars chars) [] := by
  intro before after _
  rw [List.append_nil]

theorem append {a b : List Char} {slots new more : Slots} {text rest : List Symbol}
    (ha : Reduces a slots text new) (hclosed : ∀ s ∈ text, s.closes? = none)
    (hb : Reduces b (slots ++ new) rest more) :
    Reduces (a ++ b) slots (text ++ rest) (new ++ more) := by
  intro before after hbefore
  have hfront : ∀ s ∈ before ++ text, s.closes? = none := by
    intro s hs
    exact (List.mem_append.mp hs).elim (hbefore s) (hclosed s)
  have hfirst := ha before (ofChars b ++ after) hbefore
  have hsecond := hb (before ++ text) after hfront
  simp only [ofChars_append, List.append_assoc] at hfirst hsecond ⊢
  exact hfirst.trans hsecond

theorem exact {chars : List Char} {slots new : Slots} {text : List Symbol}
    (h : Reduces chars slots text new) (hs : slots.Exact) : (slots ++ new).Exact :=
  (h [] [] nofun).exact hs

/-- A group whose body is reduced is built in one step. -/
theorem group {kind : GroupKind} {body : List Char} {slots new new' : Slots} {text : List Symbol}
    {parked : Parked} (h : Reduces body slots text new)
    (hdelimiters : ∀ s ∈ text, s.closes? = none ∧ s.opens? = none)
    (hbuild : Group.build kind text (slots ++ new) = .ok (parked, slots ++ new')) :
    Reduces (kind.opener :: (body ++ [kind.closer])) slots [.group (slots.length + new'.length)]
      (new' ++ [some parked]) := by
  intro before after hbefore
  have hfront : ∀ s ∈ before ++ [Symbol.char kind.opener], s.closes? = none := by
    intro s hs
    rcases List.mem_append.mp hs with hs | hs
    · exact hbefore s hs
    · rw [List.mem_singleton.mp hs]
      exact closes?_char_opener kind
  have hbody := h (before ++ [.char kind.opener]) (.char kind.closer :: after) hfront
  have hstep : Next
      ⟨before ++ .char kind.opener :: (text ++ .char kind.closer :: after), slots ++ new⟩
      ⟨before ++ .group (slots ++ new').length :: after, slots ++ new' ++ [some parked]⟩ :=
    next_iff.mpr ⟨⟨before, kind, text, after⟩, parked, slots ++ new', rfl,
      ⟨hbefore, fun s hs => (hdelimiters s hs).1, fun s hs => (hdelimiters s hs).2⟩, hbuild, rfl⟩
  simp only [ofChars_append, ofChars_cons, ofChars_nil, List.append_assoc, List.cons_append,
    List.nil_append, List.length_append] at hbody hstep ⊢
  exact hbody.tail hstep

/-- Characters without closing delimiters around a text that is reduced. -/
theorem between {p q chars : List Char} {slots new : Slots} {text : List Symbol}
    (h : Reduces chars slots text new) (hp : ∀ s ∈ ofChars p, s.closes? = none)
    (hclosed : ∀ s ∈ text, s.closes? = none) :
    Reduces (p ++ chars ++ q) slots (ofChars p ++ text ++ ofChars q) new := by
  have hfront := (refl p slots).append hp (by rwa [List.append_nil])
  have hall := hfront.append (fun s hs => ?_) (refl q (slots ++ ([] ++ new)))
  · simpa using hall
  · exact (List.mem_append.mp hs).elim (hp s) (hclosed s)

end Reduces

end Reduction

/-! ### Derivations -/

section Derivations

open Reduction

/-- A key reduces to itself. -/
theorem reduces_key {p k q : List Char} {name : String} (slots : Slots) (hp : Blank p)
    (hk : KeyText name k) (hq : Blank q) :
    ∃ entry text new, Reduces (p ++ k ++ q) slots text new ∧ Entry.Spells entry text ∧
      Supplies slots.length new [entry] [(some name, .key)] :=
  ⟨.key name, _, [], .refl _ slots, .key hp hk hq, .key _ name⟩

mutual
/-- A group reduces to one reference, and its shape is parked. -/
theorem reduces_group : {tree : Tree} → {u : List Char} → GroupText tree u → {slots : Slots} →
    {s : Shape} → slots.Exact → tree.denote? = some s → s.depth ≤ maxDepth →
    ∃ new, Reduces u slots [.group (slots.length + new.length)] (new ++ [some ⟨s, s.depth⟩])
  | _, _, .group hbody, slots, s, hs, htree, hdepth => by
    obtain ⟨shapes, hshapes, hgroup⟩ := Tree.denote?_group_eq_some_iff.mp htree
    have hsorted := Tree.sorted_denoteEntries? _ hshapes
    have hdepths : ∀ e ∈ shapes, e.2.depth ≤ maxDepth := by
      intro e he
      have hlt := depth_lt_groupShape? hsorted hgroup he
      omega
    obtain ⟨entries, text, new, hreduces, hentries, hdelimiters, hsupplies⟩ :=
      reduces_body hbody hs hshapes hdepths
    obtain ⟨new', hbuild⟩ := hsupplies.build (hreduces.exact hs) hentries hgroup hdepth
    exact ⟨new', hreduces.group hdelimiters hbuild⟩

/-- A body reduces to one that has the same entries. -/
theorem reduces_body : {kind : GroupKind} → {trees : List (Option String × Tree)} →
    {body : List Char} → BodyText kind trees body → {slots : Slots} →
    {shapes : List (Option String × Shape)} → slots.Exact →
    Tree.denoteEntries? trees = some shapes → (∀ e ∈ shapes, e.2.depth ≤ maxDepth) →
    ∃ entries text new, Reduces body slots text new ∧ Entry.ofBody text = .ok entries ∧
      (∀ s ∈ text, s.closes? = none ∧ s.opens? = none) ∧
      Supplies slots.length new entries shapes
  | _, _, body, .blank hp, slots, shapes, _, hshapes, _ => by
    cases hshapes
    refine ⟨[], ofChars body, [], .refl body slots, ?_, ?_, .nil _⟩
    · exact ofBody_eq_ok_iff.mpr (.inl ⟨rfl, trim_eq_nil_iff.mpr ⟨body, hp, rfl⟩⟩)
    · intro s hs
      obtain ⟨c, hc, rfl⟩ := List.mem_map.mp hs
      rw [hp c hc]
      exact ⟨rfl, rfl⟩
  | _, _, _, .entries hentries, slots, shapes, hs, hshapes, hdepths => by
    obtain ⟨entries, text, new, hreduces, hspell, hsupplies⟩ :=
      reduces_entries hentries hs hshapes hdepths
    exact ⟨entries, text, new, hreduces, ofBody_eq_ok_iff.mpr (.inr hspell), hspell.no_delimiter,
      hsupplies⟩

/-- Entries reduce one after the other. -/
theorem reduces_entries : {kind : GroupKind} → {trees : List (Option String × Tree)} →
    {chars : List Char} → EntriesText kind trees chars → {slots : Slots} →
    {shapes : List (Option String × Shape)} → slots.Exact →
    Tree.denoteEntries? trees = some shapes → (∀ e ∈ shapes, e.2.depth ≤ maxDepth) →
    ∃ entries text new, Reduces chars slots text new ∧ Entry.SpellAll entries text ∧
      Supplies slots.length new entries shapes
  | _, _, _, .one hentry, slots, shapes, hs, hshapes, hdepths => by
    obtain ⟨shape, rest, hshape, hrest, rfl⟩ := Tree.denoteEntries?_cons_eq_some_iff.mp hshapes
    cases hrest
    obtain ⟨entry, text, new, hreduces, hspell, hsupplies⟩ :=
      reduces_entry hentry hs hshape (hdepths _ (List.mem_singleton_self _))
    exact ⟨[entry], text, new, hreduces, .one hspell, hsupplies⟩
  | _, _, _, .cons hentry hmore, slots, shapes, hs, hshapes, hdepths => by
    obtain ⟨shape, rest, hshape, hrest, rfl⟩ := Tree.denoteEntries?_cons_eq_some_iff.mp hshapes
    obtain ⟨hfirst, hothers⟩ := List.forall_mem_cons.mp hdepths
    obtain ⟨entry, text, new, hreduces, hspell, hsupplies⟩ := reduces_entry hentry hs hshape hfirst
    obtain ⟨entries, text', new', hreduces', hspell', hsupplies'⟩ :=
      reduces_entries hmore (hreduces.exact hs) hrest hothers
    rw [List.length_append] at hsupplies'
    have hclosed : ∀ s ∈ ofChars [','], s.closes? = none := by
      simp [closes?, GroupKind.ofCloser?]
    have hcomma := (Reduces.refl [','] (slots ++ new)).append hclosed (by rwa [List.append_nil])
    refine ⟨entry :: entries, text ++ .char ',' :: text', new ++ new', ?_, .cons hspell hspell',
      hsupplies.cons hsupplies'⟩
    exact hreduces.append (fun s hs => (hspell.no_delimiter s hs).1) hcomma

/-- An entry reduces to one that refers to its group. -/
theorem reduces_entry : {kind : GroupKind} → {entry : Option String × Tree} →
    {chars : List Char} → EntryText kind entry chars → {slots : Slots} → {shape : Shape} →
    slots.Exact → entry.2.denote? = some shape → shape.depth ≤ maxDepth →
    ∃ entry' text new, Reduces chars slots text new ∧ Entry.Spells entry' text ∧
      Supplies slots.length new [entry'] [(entry.1, shape)]
  | _, _, _, .key hp hk hq, slots, shape, _, hshape, _ => by
    cases hshape
    exact reduces_key slots hp hk hq
  | _, _, _, @EntryText.keyed _ name _ p k q r u s hp hk hq hr hu hs', slots, shape, hs, hshape,
      hdepth => by
    obtain ⟨new, hreduces⟩ := reduces_group hu hs hshape hdepth
    have hspell : Entry.Spells (.keyed name (slots.length + new.length)) _ := .keyed hp hk hq hr hs'
    have hfront := hreduces.between (p := p ++ k ++ q ++ ':' :: r) (q := s)
      (fun x hx => (hspell.no_delimiter x (List.mem_append_left _ hx)).1) (by simp [closes?])
    refine ⟨.keyed name (slots.length + new.length), _, _, ?_, hspell,
      .keyed _ new name ⟨shape, shape.depth⟩⟩
    simpa using hfront
  | _, _, _, @EntryText.alone _ p u q hp hu hq, slots, shape, hs, hshape, hdepth => by
    obtain ⟨new, hreduces⟩ := reduces_group hu hs hshape hdepth
    have hspell : Entry.Spells (.group (slots.length + new.length)) _ := .group hp hq
    have hfront := hreduces.between (p := p) (q := q)
      (fun x hx => (hspell.no_delimiter x (List.mem_append_left _ hx)).1) (by simp [closes?])
    refine ⟨.group (slots.length + new.length), _, _, ?_, hspell,
      .group _ new ⟨shape, shape.depth⟩⟩
    simpa using hfront
end

end Derivations

/-! ### Whole rules -/

/-- The shape that entries denote cannot be that of one group alone. -/
theorem ne_group_of_supplies {count : Nat} {new : Slots} {entries : List Entry}
    {text : List Symbol} {shapes : List (Option String × Shape)} {s : Shape}
    (hspell : Entry.SpellAll entries text) (h : Supplies count new entries shapes)
    (hshape : groupShape? .object shapes = some s) (index : Nat) : trim text ≠ [.group index] := by
  intro htext
  have hone : Entry.SpellAll [.group index] [.group index] := .one (.group Blank.nil Blank.nil)
  have hentries : entries = [.group index] := by
    have hbody := ofBody_eq_ok_iff.mpr (.inr hspell)
    rw [← ofBody_trim, htext, ofBody_eq_ok_iff.mpr (.inr hone)] at hbody
    exact (Except.ok.inj hbody).symm
  subst hentries
  obtain ⟨parts, new', -, rfl, hread⟩ := h (List.replicate count none) [] (by simp)
  cases hread with
  | @cons _ _ _ _ _ part _ hpart hrest =>
    obtain ⟨name, he, -⟩ | ⟨i, -, ⟨name, he, -⟩ | ⟨-, hname⟩⟩ := Slots.read_cases hpart
    · cases he
    · cases he
    · have harray := eq_array_of_groupShape? hshape List.mem_cons_self hname
      cases harray

/-- A rule that derives from the grammar runs to the shape of its tree. -/
theorem run_of_spells {tree : Tree} {rule : List Char} {shape : Shape} (h : Spells tree rule)
    (htree : tree.denote? = some shape) (hdepth : shape.depth ≤ maxDepth) :
    (Reduction.start rule).run = .ok shape := by
  rw [Reduction.run_eq_ok_iff]
  have hexact : Slots.Exact [] := Reduction.exact_start rule
  cases h with
  | @group _ p u q hp hu hq =>
    obtain ⟨new, hreduces⟩ := reduces_group hu hexact htree hdepth
    have hspell : Entry.Spells (.group new.length) _ := .group hp hq
    have hrule := hreduces.between (p := p) (q := q)
      (fun x hx => (hspell.no_delimiter x (List.mem_append_left _ hx)).1) (by simp [closes?])
    have hsteps := hrule [] [] nofun
    simp only [List.nil_append, List.append_nil, List.length_nil, Nat.zero_add, List.append_assoc,
      List.singleton_append] at hsteps
    refine ⟨_, by simpa [Reduction.start] using hsteps,
      Reduction.step_eq_none_iff.mpr hspell.no_delimiter, ?_⟩
    refine Reduction.finish_eq_ok_iff.mpr ⟨⟨shape, shape.depth⟩, rfl, .inl ⟨new.length, ?_, ?_⟩⟩
    · exact trim_group hp hq new.length
    · exact List.getElem?_concat_length
  | entries htexts =>
    obtain ⟨shapes, hshapes, hgroup⟩ := Tree.denote?_group_eq_some_iff.mp htree
    have hsorted := Tree.sorted_denoteEntries? _ hshapes
    obtain ⟨entries, text, new, hreduces, hspell, hsupplies⟩ :=
      reduces_entries htexts hexact hshapes fun e he => by
        have hlt := depth_lt_groupShape? hsorted hgroup he
        omega
    have hsteps := hreduces [] [] nofun
    simp only [List.nil_append, List.append_nil] at hsteps
    have hnew := hreduces.exact hexact
    obtain ⟨new', hbuild⟩ := hsupplies.build hnew (ofBody_eq_ok_iff.mpr (.inr hspell)) hgroup hdepth
    refine ⟨_, hsteps, Reduction.step_eq_none_iff.mpr hspell.no_delimiter, ?_⟩
    refine Reduction.finish_eq_ok_iff.mpr ⟨⟨shape, shape.depth⟩, rfl, .inr ⟨?_, new', ?_⟩⟩
    · exact ne_group_of_supplies hspell hsupplies hgroup
    · rwa [Group.build_trim]

end Allowlist.Rule

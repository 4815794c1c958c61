import Allowlist.Proofs.Rule.Conflict

/-!
# Proofs.Rule.Inside — groups inside of a derivation

No name holds an opening brace, so wherever one stands in a rule it opens an object of its
derivation.  Without arrays that have entries, every object has a path of names from the root
(`Tree.ObjectAt`), and what its first entries declare the rule declares below that path
(`Spells.exists_apart`).
-/

namespace Allowlist.Rule

open Allowlist.Shape (Kind)

/-! ### Objects of a tree -/

/-- No array of the tree has entries. -/
inductive Tree.Plain : Tree → Prop
  | key : Plain .key
  | object {entries : List (Option String × Tree)} :
      (∀ entry ∈ entries, Plain entry.2) → Plain (.group .object entries)
  | values : Plain (.group .array [])

theorem Tree.Plain.entries {kind : GroupKind} {entries : List (Option String × Tree)}
    (h : (Tree.group kind entries).Plain) : ∀ entry ∈ entries, entry.2.Plain := by
  cases h with
  | object hentries => exact hentries
  | values => exact nofun

/-- The object with these entries stands where the names lead to, from object to object. -/
inductive Tree.ObjectAt : Tree → List String → List (Option String × Tree) → Prop
  | here {entries : List (Option String × Tree)} : ObjectAt (.group .object entries) [] entries
  | member {name : String} {tree : Tree} {entries inner : List (Option String × Tree)}
      {names : List String} :
      (some name, tree) ∈ entries → ObjectAt tree names inner →
      ObjectAt (.group .object entries) (name :: names) inner

theorem Tree.ObjectAt.declares {tree : Tree} {base names : List String}
    {entries : List (Option String × Tree)} {k : Kind} (h : tree.ObjectAt base entries)
    (hk : (Tree.group .object entries).Declares names k) : tree.Declares (base ++ names) k := by
  induction h with
  | here => exact hk
  | member hmem _ ih => exact .member hmem (ih hk)

theorem Tree.Declares.of_front {first entries : List (Option String × Tree)}
    {names : List String} {k : Kind} (h : first <+: entries)
    (hk : (Tree.group .object first).Declares names k) :
    (Tree.group .object entries).Declares names k := by
  cases hk with
  | object => exact .object
  | member hmem hk => exact .member (h.subset hmem) hk

/-- The tree has an object where the names lead to, whose body `text` begins with. -/
def Tree.BodyAt (tree : Tree) (names : List String) (text : List Char) : Prop :=
  ∃ entries body rest, tree.ObjectAt names entries ∧ BodyText .object entries body ∧
    text = body ++ '\x7d' :: rest

theorem Tree.BodyAt.append {tree : Tree} {names : List String} {text : List Char}
    (h : tree.BodyAt names text) (more : List Char) : tree.BodyAt names (text ++ more) := by
  obtain ⟨entries, body, rest, hat, hbody, rfl⟩ := h
  exact ⟨entries, body, rest ++ more, hat, hbody, by simp⟩

theorem Tree.BodyAt.member {name : String} {tree : Tree} {entries : List (Option String × Tree)}
    {names : List String} {text : List Char} (hmem : (some name, tree) ∈ entries)
    (h : tree.BodyAt names text) : (Tree.group .object entries).BodyAt (name :: names) text := by
  obtain ⟨inner, body, rest, hat, hbody, rfl⟩ := h
  exact ⟨inner, body, rest, .member hmem hat, hbody, rfl⟩

/-! ### Where a brace stands -/

theorem Blank.not_brace {p : List Char} (hp : Blank p) : '\x7b' ∉ p := fun h =>
  absurd (hp _ h) (by decide)

theorem KeyText.not_brace {name : String} {k : List Char} (hk : KeyText name k) : '\x7b' ∉ k :=
  fun h => absurd (hk.char_cases h) (by decide)

mutual
/-- A brace in a group opens this group, or an object inside. -/
theorem GroupText.exists_bodyAt : {tree : Tree} → {u before tail : List Char} →
    GroupText tree u → tree.Plain → u = before ++ '\x7b' :: tail →
    ∃ names, tree.BodyAt names tail ∧ (names = [] ↔ before = [])
  | _, _, before, tail, @GroupText.group kind entries body hbody, hplain, h => by
    cases before with
    | nil =>
      obtain ⟨hopener, rfl⟩ := List.cons.inj h
      cases kind with
      | array => exact absurd hopener (by decide)
      | object => exact ⟨[], ⟨entries, body, [], .here, hbody, rfl⟩, iff_of_true rfl rfl⟩
    | cons c before =>
      have hcloser : '\x7b' ∉ [kind.closer] := by cases kind <;> decide
      obtain ⟨back, hinner, rfl⟩ := Cut.before_of_notMem hcloser (List.cons.inj h).2
      obtain ⟨name?, tree, names, hmem, hat, hnamed⟩ := hbody.exists_bodyAt hplain.entries hinner
      rcases hnamed with rfl | ⟨name, rfl, -⟩
      · cases hplain
        cases hmem
      · cases hplain
        · exact ⟨name :: names, (hat.append _).member hmem, iff_of_false nofun nofun⟩
        · cases hmem
  termination_by structural _ _ _ _ h => h

/-- A brace in a body opens an object inside of an entry, behind the colon of its name. -/
theorem BodyText.exists_bodyAt : {kind : GroupKind} → {entries : List (Option String × Tree)} →
    {body before tail : List Char} → BodyText kind entries body →
    (∀ entry ∈ entries, entry.2.Plain) → body = before ++ '\x7b' :: tail →
    ∃ name? tree names, (name?, tree) ∈ entries ∧ tree.BodyAt names tail ∧
      (kind = .array ∨ ∃ name, name? = some name ∧ ':' ∈ before)
  | _, _, _, _, _, .blank hp, _, h => absurd (by rw [h]; simp) hp.not_brace
  | _, _, _, _, _, .entries hentries, hplain, h => hentries.exists_bodyAt hplain h
  termination_by structural _ _ _ _ _ h => h

theorem EntriesText.exists_bodyAt : {kind : GroupKind} →
    {entries : List (Option String × Tree)} → {text before tail : List Char} →
    EntriesText kind entries text → (∀ entry ∈ entries, entry.2.Plain) →
    text = before ++ '\x7b' :: tail →
    ∃ name? tree names, (name?, tree) ∈ entries ∧ tree.BodyAt names tail ∧
      (kind = .array ∨ ∃ name, name? = some name ∧ ':' ∈ before)
  | _, _, _, _, _, @EntriesText.one _ entry _ hentry, hplain, h => by
    obtain ⟨names, hat, hnamed⟩ := hentry.exists_bodyAt (hplain entry List.mem_cons_self) h
    exact ⟨entry.1, entry.2, names, List.mem_cons_self, hat, hnamed⟩
  | _, _, _, before, tail, @EntriesText.cons _ entry text entries rest hentry hmore, hplain, h => by
    obtain ⟨hfirst, hothers⟩ := List.forall_mem_cons.mp hplain
    rcases Cut.before_or_behind (by decide) h with ⟨inner, htext, rfl⟩ | ⟨inner, rfl, hrest⟩
    · obtain ⟨names, hat, hnamed⟩ := hentry.exists_bodyAt hfirst htext
      exact ⟨entry.1, entry.2, names, List.mem_cons_self, hat.append _, hnamed⟩
    · obtain ⟨name?, tree, names, hmem, hat, hnamed⟩ := hmore.exists_bodyAt hothers hrest
      refine ⟨name?, tree, names, List.mem_cons_of_mem _ hmem, hat, hnamed.imp_right ?_⟩
      rintro ⟨name, rfl, hcolon⟩
      exact ⟨name, rfl, by simp [hcolon]⟩
  termination_by structural _ _ _ _ _ h => h

theorem EntryText.exists_bodyAt : {kind : GroupKind} → {entry : Option String × Tree} →
    {text before tail : List Char} → EntryText kind entry text → entry.2.Plain →
    text = before ++ '\x7b' :: tail →
    ∃ names, entry.2.BodyAt names tail ∧
      (kind = .array ∨ ∃ name, entry.1 = some name ∧ ':' ∈ before)
  | _, _, _, _, _, .key hp hk hq, _, h => by
    have hmem : '\x7b' ∉ _ := fun hmem => (List.mem_append.mp hmem).elim
      (fun hmem => (List.mem_append.mp hmem).elim hp.not_brace hk.not_brace) hq.not_brace
    exact absurd (by rw [h]; simp) hmem
  | _, _, _, before, tail, @EntryText.keyed _ name _ p k q r u s hp hk hq hr hu hs, hplain, h => by
    have hfront : '\x7b' ∉ p ++ k ++ q ++ [':'] ++ r := by
      simp [hp.not_brace, hk.not_brace, hq.not_brace, hr.not_brace]
    have hsplit : (p ++ k ++ q ++ [':'] ++ r) ++ (u ++ s) = before ++ '\x7b' :: tail := by
      simpa using h
    obtain ⟨inner, rfl, hrest⟩ := Cut.behind_of_notMem hfront hsplit
    obtain ⟨tail, hu', rfl⟩ := Cut.before_of_notMem hs.not_brace hrest
    obtain ⟨names, hat, -⟩ := hu.exists_bodyAt hplain hu'
    exact ⟨names, hat.append s, .inr ⟨name, rfl, by simp⟩⟩
  | _, _, _, _, _, @EntryText.alone _ p u q hp hu hq, hplain, h => by
    rw [List.append_assoc] at h
    obtain ⟨inner, rfl, hrest⟩ := Cut.behind_of_notMem hp.not_brace h
    obtain ⟨tail, hu', rfl⟩ := Cut.before_of_notMem hq.not_brace hrest
    obtain ⟨names, hat, -⟩ := hu.exists_bodyAt hplain hu'
    exact ⟨names, hat.append q, .inl rfl⟩
  termination_by structural _ _ _ _ _ h => h
end

/-! ### Entries at the front of a body -/

/-- Entries that a text begins with are the first of those that it spells. -/
theorem EntriesText.front_of : {kind : GroupKind} → {first entries : List (Option String × Tree)} →
    {piece text rest rest' : List Char} → EntriesText kind first piece →
    EntriesText kind entries text → EndsEntry rest → EndsEntries rest' →
    piece ++ rest = text ++ rest' → first <+: entries
  | _, _, _, _, _, _, _, .one hentry, .one hentry', hrest, hrest', h => by
    obtain ⟨rfl, -⟩ := hentry.unique hentry' hrest hrest'.endsEntry h
    exact List.prefix_rfl
  | _, _, _, _, _, _, _, .one hentry, .cons hentry' _, hrest, _, h => by
    rw [List.append_assoc] at h
    obtain ⟨rfl, -⟩ := hentry.unique hentry' hrest (endsEntry_comma _) h
    exact List.prefix_append [_] _
  | _, _, _, _, _, _, _, .cons hentry _, .one hentry', _, hrest', h => by
    rw [List.append_assoc] at h
    obtain ⟨-, -, htail⟩ := hentry.unique hentry' (endsEntry_comma _) hrest'.endsEntry h
    exact absurd htail.symm hrest'.ne_comma
  | _, _, _, _, _, _, _, .cons hentry hmore, .cons hentry' hmore', hrest, hrest', h => by
    rw [List.append_assoc, List.append_assoc] at h
    obtain ⟨rfl, -, htail⟩ := hentry.unique hentry' (endsEntry_comma _) (endsEntry_comma _) h
    have hfront := hmore.front_of hmore' hrest hrest' (List.cons.inj htail).2
    exact List.cons_prefix_cons.mpr ⟨rfl, hfront⟩
  termination_by structural _ _ _ _ _ _ _ h => h

theorem BodyText.front_of {kind : GroupKind} {first entries : List (Option String × Tree)}
    {piece body rest rest' : List Char} (h : EntriesText kind first piece)
    (hbody : BodyText kind entries body) (hrest : EndsEntry rest)
    (heq : piece ++ rest = body ++ kind.closer :: rest') : first <+: entries := by
  cases hbody with
  | blank hp => exact absurd heq (h.append_ne_blank_closer hp)
  | entries hentries => exact h.front_of hentries hrest (endsEntries_closer kind rest') heq

theorem Tree.Apart.of_front {first entries : List (Option String × Tree)} {names : List String}
    (h : first <+: entries) (hapart : (Tree.group .object first).Apart names) :
    (Tree.group .object entries).Apart names := by
  obtain ⟨k, l, hne, hk, hl⟩ := hapart
  exact ⟨k, l, hne, hk.of_front h, hl.of_front h⟩

theorem Tree.ObjectAt.apart {tree : Tree} {base names : List String}
    {entries : List (Option String × Tree)} (h : tree.ObjectAt base entries)
    (hapart : (Tree.group .object entries).Apart names) : tree.Apart (base ++ names) := by
  obtain ⟨k, l, hne, hk, hl⟩ := hapart
  exact ⟨k, l, hne, h.declares hk, h.declares hl⟩

/-- Entries that lead the body of an object declare below its path what they declare. -/
theorem Tree.BodyAt.apart {tree : Tree} {base names : List String} {text piece rest : List Char}
    {first : List (Option String × Tree)} (h : tree.BodyAt base text)
    (hfirst : EntriesText .object first piece) (hrest : EndsEntry rest)
    (htext : text = piece ++ rest) (hapart : (Tree.group .object first).Apart names) :
    tree.Apart (base ++ names) := by
  obtain ⟨entries, body, back, hat, hbody, rfl⟩ := h
  exact hat.apart (hapart.of_front (hbody.front_of hfirst hrest htext.symm))

/-! ### Rules -/

theorem atTop_append_iff {before : List Char} : AtTop (before ++ ['\x7b']) ↔ Blank before := by
  constructor
  · rintro (h | ⟨p, hp, h⟩)
    · simp at h
    · rwa [List.append_cancel_right h]
  · exact fun h => .inr ⟨before, h, rfl⟩

/-- A brace in a rule opens an object of its derivation, the root where nothing is before it. -/
theorem Spells.exists_bodyAt {tree : Tree} {rule before tail : List Char} (h : Spells tree rule)
    (hplain : tree.Plain) (hrule : rule = before ++ '\x7b' :: tail) :
    ∃ base, tree.BodyAt base tail ∧ (base = [] ↔ Blank before) := by
  cases h with
  | @group _ p u q hp hu hq =>
    rw [List.append_assoc] at hrule
    obtain ⟨inner, rfl, hrest⟩ := Cut.behind_of_notMem hp.not_brace hrule
    obtain ⟨back, hback, rfl⟩ := Cut.before_of_notMem hq.not_brace hrest
    obtain ⟨base, hat, hbase⟩ := hu.exists_bodyAt hplain hback
    refine ⟨base, hat.append q, hbase.trans ⟨?_, ?_⟩⟩
    · rintro rfl
      rwa [List.append_nil]
    · intro hblank
      cases inner with
      | nil => rfl
      | cons c inner =>
        obtain ⟨kind, v, rfl⟩ := hu.exists_cons
        obtain ⟨rfl, -⟩ := List.cons.inj hback
        exact absurd (hblank kind.opener (by simp)) (by cases kind <;> decide)
  | entries hentries =>
    obtain ⟨name?, inner, base, hmem, hat, hnamed⟩ := hentries.exists_bodyAt hplain.entries hrule
    obtain ⟨name, rfl, hcolon⟩ := hnamed.resolve_left nofun
    exact ⟨name :: base, hat.member hmem,
      iff_of_false nofun fun hblank => absurd (hblank ':' hcolon) (by decide)⟩

/-- What entries at the front of a body declare twice over, the rule declares twice over: below the
path of the body, which is empty at the top and nowhere else. -/
theorem Spells.exists_apart {tree : Tree} {rule front : List Char} {names : List String}
    (h : Spells tree rule) (hplain : tree.Plain) (hapart : ApartBehind rule front names)
    (hfront : AtTop front ∨ Inside front) :
    ∃ base, tree.Apart (base ++ names) ∧ (base = [] ↔ AtTop front) := by
  obtain ⟨first, ⟨piece, rest, hrule, hfirst, hrest⟩, hapart⟩ := hapart
  rcases atTop_or_inside_iff.mp hfront with rfl | ⟨before, rfl⟩
  · rw [List.nil_append] at hrule
    refine ⟨[], ?_, iff_of_true rfl (.inl rfl)⟩
    cases h with
    | group hp hu hq =>
      rw [List.append_assoc] at hrule
      exact absurd hrule.symm (hfirst.append_ne_group hp hu)
    | entries hentries =>
      refine hapart.of_front (hfirst.front_of hentries hrest endsEntries_nil ?_)
      rw [← hrule, List.append_nil]
  · have hbrace : rule = before ++ '\x7b' :: (piece ++ rest) := by simpa using hrule
    obtain ⟨base, hat, hbase⟩ := h.exists_bodyAt hplain hbrace
    exact ⟨base, hat.apart hfirst hrest rfl hapart, hbase.trans atTop_append_iff.symm⟩

end Allowlist.Rule

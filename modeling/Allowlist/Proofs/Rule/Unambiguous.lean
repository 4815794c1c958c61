import Allowlist.Proofs.Rule.Grammar

/-!
# Proofs.Rule.Unambiguous — a rule has one derivation

Each text of the grammar ends at the same place in every reading: names, blanks and groups cannot be
continued by what may stand behind them.  So two derivations that begin one text have the same tree
and the same length (`GroupText.unique`, `EntryText.unique`), and a rule derives from the grammar
with one tree only (`Spells.unique`).
-/

namespace Allowlist.Rule

/-- A text of characters with a property ends where the property does. -/
theorem append_inj_of_span {P : Char → Prop} {a b x y : List Char} (ha : ∀ c ∈ a, P c)
    (hb : ∀ c ∈ b, P c) (hx : ∀ c ∈ x.head?, ¬ P c) (hy : ∀ c ∈ y.head?, ¬ P c)
    (h : a ++ x = b ++ y) : a = b ∧ x = y := by
  induction a generalizing b with
  | nil =>
    cases b with
    | nil => exact ⟨rfl, h⟩
    | cons c b =>
      obtain rfl : x = c :: (b ++ y) := h
      exact absurd (hb c List.mem_cons_self) (hx c rfl)
  | cons c a ih =>
    obtain ⟨hc, ha⟩ := List.forall_mem_cons.mp ha
    cases b with
    | nil =>
      obtain rfl : c :: (a ++ x) = y := h
      exact absurd hc (hy c rfl)
    | cons d b =>
      obtain ⟨hcd, htail⟩ := List.cons.inj h
      obtain ⟨hab, hxy⟩ := ih ha (List.forall_mem_cons.mp hb).2 htail
      exact ⟨by rw [hcd, hab], hxy⟩

/-! ### What may stand behind -/

/-- Behind a name stands no character of a name. -/
def EndsName (rest : List Char) : Prop :=
  ∀ c ∈ rest.head?, isNameChar c = false

/-- Behind an entry stands a comma, a closing delimiter, or nothing. -/
def EndsEntry (rest : List Char) : Prop :=
  ∀ c ∈ rest.head?, c = ',' ∨ c = '\x7d' ∨ c = ']'

/-- Behind the last entry stands a closing delimiter, or nothing. -/
def EndsEntries (rest : List Char) : Prop :=
  ∀ c ∈ rest.head?, c = '\x7d' ∨ c = ']'

theorem endsName_colon (rest : List Char) : EndsName (':' :: rest) := by
  intro c hc
  obtain rfl := Option.some.inj hc
  decide

theorem endsEntry_comma (rest : List Char) : EndsEntry (',' :: rest) :=
  fun _ hc => .inl (Option.some.inj hc).symm

theorem endsEntries_nil : EndsEntries [] := nofun

theorem endsEntries_closer (kind : GroupKind) (rest : List Char) :
    EndsEntries (kind.closer :: rest) := by
  intro c hc
  obtain rfl := Option.some.inj hc
  cases kind
  · exact .inl rfl
  · exact .inr rfl

theorem EndsEntries.endsEntry {rest : List Char} (h : EndsEntries rest) : EndsEntry rest :=
  fun c hc => .inr (h c hc)

theorem EndsEntries.ne_comma {rest more : List Char} (h : EndsEntries rest) :
    rest ≠ ',' :: more := by
  rintro rfl
  have hcomma := h ',' rfl
  revert hcomma
  decide

theorem EndsEntry.endsName {rest : List Char} (h : EndsEntry rest) : EndsName rest := by
  intro c hc
  rcases h c hc with rfl | rfl | rfl <;> decide

theorem EndsEntry.ne_blank {rest : List Char} (h : EndsEntry rest) : rest.head? ≠ some ' ' := by
  intro hc
  have hblank := h ' ' hc
  revert hblank
  decide

theorem EndsEntry.ne_colon {rest more : List Char} (h : EndsEntry rest) : rest ≠ ':' :: more := by
  rintro rfl
  have hcolon := h ':' rfl
  revert hcolon
  decide

theorem EndsName.behind_blank {q rest : List Char} (h : EndsName rest) (hq : Blank q) :
    EndsName (q ++ rest) := by
  cases q with
  | nil => exact h
  | cons c q =>
    intro d hd
    obtain rfl := Option.some.inj hd
    rw [hq c List.mem_cons_self]
    decide

/-! ### Blanks, names and groups -/

theorem Blank.append_inj {p p' x y : List Char} (hp : Blank p) (hp' : Blank p')
    (hx : x.head? ≠ some ' ') (hy : y.head? ≠ some ' ') (h : p ++ x = p' ++ y) :
    p = p' ∧ x = y :=
  append_inj_of_span hp hp' (fun _ hc he => hx (he ▸ hc)) (fun _ hc he => hy (he ▸ hc)) h

/-- The characters that a written name, or in an array a group, begins with. -/
def StartsEntry (kind : GroupKind) (c : Char) : Prop :=
  c = '\'' ∨ isNameChar c = true ∨ kind = .array ∧ ∃ inner : GroupKind, c = inner.opener

theorem StartsEntry.ne_blank {kind : GroupKind} {c : Char} (h : StartsEntry kind c) : c ≠ ' ' := by
  rintro rfl
  obtain h | h | ⟨-, inner, h⟩ := h
  · revert h
    decide
  · revert h
    decide
  · revert h
    cases inner <;> decide

theorem StartsEntry.ne_closer {kind : GroupKind} {c : Char} (h : StartsEntry kind c)
    (other : GroupKind) : c ≠ other.closer := by
  rintro rfl
  obtain h | h | ⟨-, inner, h⟩ := h
  · revert h
    cases other <;> decide
  · revert h
    cases other <;> decide
  · revert h
    cases other <;> cases inner <;> decide

/-- Outside of an array no entry begins as a group does. -/
theorem StartsEntry.ne_opener {c : Char} (h : StartsEntry .object c) (other : GroupKind) :
    c ≠ other.opener := by
  rintro rfl
  obtain h | h | ⟨h, -⟩ := h
  · revert h
    cases other <;> decide
  · revert h
    cases other <;> decide
  · cases h

theorem KeyText.exists_cons {name : String} {k : List Char} (hk : KeyText name k)
    (kind : GroupKind) : ∃ c cs, k = c :: cs ∧ StartsEntry kind c := by
  cases hk with
  | bare hne hall =>
    obtain ⟨c, cs, hcs⟩ := List.exists_cons_of_ne_nil hne
    exact ⟨c, cs, hcs, .inr (.inl (hall c (hcs ▸ List.mem_cons_self)))⟩
  | quoted _ _ => exact ⟨_, _, rfl, .inl rfl⟩

theorem GroupText.exists_cons {tree : Tree} {u : List Char} (hu : GroupText tree u) :
    ∃ (kind : GroupKind) (v : List Char), u = kind.opener :: v := by
  cases hu with
  | group _ => exact ⟨_, _, rfl⟩

theorem KeyText.head_append_ne_blank {name : String} {k : List Char} (hk : KeyText name k)
    (rest : List Char) : (k ++ rest).head? ≠ some ' ' := by
  obtain ⟨c, cs, rfl, hc⟩ := hk.exists_cons .object
  simpa using hc.ne_blank

theorem GroupText.head_append_ne_blank {tree : Tree} {u : List Char} (hu : GroupText tree u)
    (rest : List Char) : (u ++ rest).head? ≠ some ' ' := by
  obtain ⟨kind, v, rfl⟩ := hu.exists_cons
  cases kind <;> simp [GroupKind.opener]

/-- A written name ends where it ends, whatever stands behind it. -/
theorem KeyText.unique {name name' : String} {k k' rest rest' : List Char} (hk : KeyText name k)
    (hk' : KeyText name' k') (hrest : EndsName rest) (hrest' : EndsName rest')
    (h : k ++ rest = k' ++ rest') : name = name' ∧ k = k' ∧ rest = rest' := by
  -- a bare name does not begin with a quote
  have hquote : ∀ {name : String} {rest more : List Char}, name.toList ≠ [] →
      (∀ c ∈ name.toList, isNameChar c = true) → name.toList ++ rest ≠ '\'' :: more := by
    intro name rest more hne hall h
    obtain ⟨c, cs, hcs⟩ := List.exists_cons_of_ne_nil hne
    rw [hcs] at h hall
    obtain ⟨rfl, -⟩ := List.cons.inj h
    have hchar := hall '\'' List.mem_cons_self
    revert hchar
    decide
  cases hk with
  | bare hne hall =>
    cases hk' with
    | bare hne' hall' =>
      obtain ⟨hname, hrest⟩ := append_inj_of_span hall hall'
        (fun c hc => by simp [hrest c hc]) (fun c hc => by simp [hrest' c hc]) h
      exact ⟨String.toList_inj.mp hname, hname, hrest⟩
    | quoted hne' hall' => exact absurd h (hquote hne hall)
  | quoted hne hall =>
    cases hk' with
    | bare hne' hall' => exact absurd h.symm (hquote hne' hall')
    | quoted hne' hall' =>
      have hends : ∀ more : List Char, ∀ c ∈ ('\'' :: more).head?, ¬ isQuotedChar c = true := by
        intro more c hc
        obtain rfl := Option.some.inj hc
        decide
      have hinside : name.toList ++ '\'' :: rest = name'.toList ++ '\'' :: rest' := by
        simpa using h
      obtain ⟨hname, hrest⟩ := append_inj_of_span hall hall' (hends rest) (hends rest') hinside
      exact ⟨String.toList_inj.mp hname, by rw [hname], (List.cons.inj hrest).2⟩

/-- A blank front and a written name, in two readings of one text. -/
theorem KeyText.unique_behind_blank {name name' : String} {p p' k k' rest rest' : List Char}
    (hp : Blank p) (hp' : Blank p') (hk : KeyText name k) (hk' : KeyText name' k')
    (hrest : EndsName rest) (hrest' : EndsName rest')
    (h : p ++ (k ++ rest) = p' ++ (k' ++ rest')) :
    name = name' ∧ p = p' ∧ k = k' ∧ rest = rest' := by
  obtain ⟨hpp, htail⟩ :=
    hp.append_inj hp' (hk.head_append_ne_blank rest) (hk'.head_append_ne_blank rest') h
  obtain ⟨hname, hkk, hrests⟩ := hk.unique hk' hrest hrest' htail
  exact ⟨hname, hpp, hkk, hrests⟩

/-- No text begins with a name in one reading and with a group in another. -/
theorem KeyText.ne_group_behind_blank {name : String} {tree : Tree}
    {p p' k u rest rest' : List Char} (hp : Blank p) (hp' : Blank p') (hk : KeyText name k)
    (hu : GroupText tree u) : p ++ (k ++ rest) ≠ p' ++ (u ++ rest') := by
  intro h
  obtain ⟨-, h⟩ :=
    hp.append_inj hp' (hk.head_append_ne_blank rest) (hu.head_append_ne_blank rest') h
  obtain ⟨kind, v, rfl⟩ := hu.exists_cons
  obtain ⟨c, cs, rfl, hc⟩ := hk.exists_cons .object
  exact hc.ne_opener kind (List.cons.inj h).1

/-! ### The front of entries -/

theorem EntryText.start {kind : GroupKind} {entry : Option String × Tree} {text : List Char}
    (h : EntryText kind entry text) :
    ∃ p c rest, Blank p ∧ StartsEntry kind c ∧ text = p ++ c :: rest := by
  cases h with
  | @key _ _ p k q hp hk hq =>
    obtain ⟨c, cs, rfl, hc⟩ := hk.exists_cons kind
    exact ⟨p, c, cs ++ q, hp, hc, by simp⟩
  | @keyed _ _ _ p k q r u s hp hk hq hr hu hs =>
    obtain ⟨c, cs, rfl, hc⟩ := hk.exists_cons kind
    exact ⟨p, c, cs ++ q ++ ':' :: (r ++ u ++ s), hp, hc, by simp⟩
  | @alone _ p u q hp hu hq =>
    obtain ⟨inner, v, rfl⟩ := hu.exists_cons
    exact ⟨p, inner.opener, v ++ q, hp, .inr (.inr ⟨rfl, inner, rfl⟩), by simp⟩

theorem EntriesText.start {kind : GroupKind} {entries : List (Option String × Tree)}
    {text : List Char} (h : EntriesText kind entries text) :
    ∃ p c rest, Blank p ∧ StartsEntry kind c ∧ text = p ++ c :: rest := by
  cases h with
  | one hentry => exact hentry.start
  | @cons _ _ _ _ more hentry _ =>
    obtain ⟨p, c, rest, hp, hc, rfl⟩ := hentry.start
    exact ⟨p, c, rest ++ ',' :: more, hp, hc, by simp⟩

/-- Where entries stand, the group is not blank. -/
theorem EntriesText.append_ne_blank_closer {kind : GroupKind}
    {entries : List (Option String × Tree)} {text p rest rest' : List Char}
    (h : EntriesText kind entries text) (hp : Blank p) :
    text ++ rest ≠ p ++ kind.closer :: rest' := by
  obtain ⟨p', c, more, hp', hc, rfl⟩ := h.start
  intro heq
  rw [List.append_assoc, List.cons_append] at heq
  have hcloser := (endsEntries_closer kind rest').endsEntry.ne_blank
  obtain ⟨-, htail⟩ := hp'.append_inj hp (by simpa using hc.ne_blank) hcloser heq
  exact hc.ne_closer kind (List.cons.inj htail).1

/-- No text begins with the entries of an object in one reading and with a group in another. -/
theorem EntriesText.append_ne_group {entries : List (Option String × Tree)} {tree : Tree}
    {text rest p u q : List Char} (h : EntriesText .object entries text) (hp : Blank p)
    (hu : GroupText tree u) : text ++ rest ≠ p ++ (u ++ q) := by
  obtain ⟨p', c, more, hp', hc, rfl⟩ := h.start
  intro heq
  rw [List.append_assoc, List.cons_append] at heq
  obtain ⟨-, htail⟩ :=
    hp'.append_inj hp (by simpa using hc.ne_blank) (hu.head_append_ne_blank q) heq
  obtain ⟨kind, v, rfl⟩ := hu.exists_cons
  exact hc.ne_opener kind (List.cons.inj htail).1

/-- The entries of an object do not read as one group. -/
theorem EntriesText.ne_group {entries : List (Option String × Tree)} {tree : Tree}
    {text p u q : List Char} (h : EntriesText .object entries text) (hp : Blank p)
    (hu : GroupText tree u) : text ≠ p ++ (u ++ q) :=
  fun heq => h.append_ne_group hp hu ((List.append_nil text).trans heq)

/-! ### Derivations -/

mutual
/-- A group ends where it ends, whatever stands behind it. -/
theorem GroupText.unique : {tree tree' : Tree} → {u u' rest rest' : List Char} →
    GroupText tree u → GroupText tree' u' → u ++ rest = u' ++ rest' →
    tree = tree' ∧ u = u' ∧ rest = rest'
  | _, _, _, _, rest, rest', @GroupText.group kind _ body hbody,
      @GroupText.group kind' _ body' hbody', h => by
    simp only [List.cons_append, List.append_assoc, List.nil_append] at h
    obtain ⟨hopener, hinside⟩ := List.cons.inj h
    obtain rfl : kind = kind' := by
      revert hopener
      cases kind <;> cases kind' <;> decide
    obtain ⟨rfl, rfl, htail⟩ := hbody.unique hbody' hinside
    exact ⟨rfl, rfl, (List.cons.inj htail).2⟩
  termination_by structural _ _ _ _ _ _ h => h

theorem BodyText.unique : {kind : GroupKind} → {entries entries' : List (Option String × Tree)} →
    {body body' rest rest' : List Char} → BodyText kind entries body →
    BodyText kind entries' body' → body ++ kind.closer :: rest = body' ++ kind.closer :: rest' →
    entries = entries' ∧ body = body' ∧ kind.closer :: rest = kind.closer :: rest'
  | kind, _, _, _, _, rest, rest', .blank hp, .blank hp', h => by
    have hcloser := fun more => (endsEntries_closer kind more).endsEntry.ne_blank
    obtain ⟨hbody, htail⟩ := hp.append_inj hp' (hcloser rest) (hcloser rest') h
    exact ⟨rfl, hbody, htail⟩
  | _, _, _, _, _, _, _, .blank hp, .entries hentries, h =>
    absurd h.symm (hentries.append_ne_blank_closer hp)
  | _, _, _, _, _, _, _, .entries hentries, .blank hp, h =>
    absurd h (hentries.append_ne_blank_closer hp)
  | kind, _, _, _, _, rest, rest', .entries hentries, .entries hentries', h =>
    hentries.unique hentries' (endsEntries_closer kind rest) (endsEntries_closer kind rest') h
  termination_by structural _ _ _ _ _ _ _ h => h

/-- Entries end where they end, before what may stand behind them. -/
theorem EntriesText.unique : {kind : GroupKind} →
    {entries entries' : List (Option String × Tree)} → {text text' rest rest' : List Char} →
    EntriesText kind entries text → EntriesText kind entries' text' → EndsEntries rest →
    EndsEntries rest' → text ++ rest = text' ++ rest' →
    entries = entries' ∧ text = text' ∧ rest = rest'
  | _, _, _, _, _, _, _, .one hentry, .one hentry', hrest, hrest', h => by
    obtain ⟨rfl, htext, htail⟩ := hentry.unique hentry' hrest.endsEntry hrest'.endsEntry h
    exact ⟨rfl, htext, htail⟩
  | _, _, _, _, _, _, _, .one hentry, .cons hentry' _, hrest, _, h => by
    rw [List.append_assoc] at h
    obtain ⟨-, -, htail⟩ := hentry.unique hentry' hrest.endsEntry (endsEntry_comma _) h
    exact absurd htail hrest.ne_comma
  | _, _, _, _, _, _, _, .cons hentry _, .one hentry', _, hrest', h => by
    rw [List.append_assoc] at h
    obtain ⟨-, -, htail⟩ := hentry.unique hentry' (endsEntry_comma _) hrest'.endsEntry h
    exact absurd htail.symm hrest'.ne_comma
  | _, _, _, _, _, _, _, .cons hentry hmore, .cons hentry' hmore', hrest, hrest', h => by
    rw [List.append_assoc, List.append_assoc] at h
    obtain ⟨rfl, rfl, htail⟩ := hentry.unique hentry' (endsEntry_comma _) (endsEntry_comma _) h
    obtain ⟨rfl, rfl, hrests⟩ := hmore.unique hmore' hrest hrest' (List.cons.inj htail).2
    exact ⟨rfl, rfl, hrests⟩
  termination_by structural _ _ _ _ _ _ _ h => h

/-- An entry ends where it ends, before what may stand behind it. -/
theorem EntryText.unique : {kind : GroupKind} → {entry entry' : Option String × Tree} →
    {text text' rest rest' : List Char} → EntryText kind entry text →
    EntryText kind entry' text' → EndsEntry rest → EndsEntry rest' →
    text ++ rest = text' ++ rest' → entry = entry' ∧ text = text' ∧ rest = rest'
  | _, _, _, _, _, _, _, .key hp hk hq, .key hp' hk' hq', hrest, hrest', h => by
    simp only [List.append_assoc] at h
    obtain ⟨rfl, rfl, rfl, htail⟩ := hk.unique_behind_blank hp hp' hk'
      (hrest.endsName.behind_blank hq) (hrest'.endsName.behind_blank hq') h
    obtain ⟨rfl, hrests⟩ := hq.append_inj hq' hrest.ne_blank hrest'.ne_blank htail
    exact ⟨rfl, rfl, hrests⟩
  | _, _, _, _, _, _, _, .key hp hk hq, .keyed hp' hk' hq' _ _ _, hrest, _, h => by
    simp only [List.append_assoc, List.cons_append] at h
    obtain ⟨-, -, -, htail⟩ := hk.unique_behind_blank hp hp' hk'
      (hrest.endsName.behind_blank hq) ((endsName_colon _).behind_blank hq') h
    obtain ⟨-, hcolon⟩ := hq.append_inj hq' hrest.ne_blank (by simp) htail
    exact absurd hcolon hrest.ne_colon
  | _, _, _, _, _, _, _, .keyed hp hk hq _ _ _, .key hp' hk' hq', _, hrest', h => by
    simp only [List.append_assoc, List.cons_append] at h
    obtain ⟨-, -, -, htail⟩ := hk.unique_behind_blank hp hp' hk'
      ((endsName_colon _).behind_blank hq) (hrest'.endsName.behind_blank hq') h
    obtain ⟨-, hcolon⟩ := hq.append_inj hq' (by simp) hrest'.ne_blank htail
    exact absurd hcolon.symm hrest'.ne_colon
  | _, _, _, _, _, _, _, .keyed hp hk hq hr hu hs, .keyed hp' hk' hq' hr' hu' hs', hrest, hrest',
      h => by
    simp only [List.append_assoc, List.cons_append] at h
    obtain ⟨rfl, rfl, rfl, htail⟩ := hk.unique_behind_blank hp hp' hk'
      ((endsName_colon _).behind_blank hq) ((endsName_colon _).behind_blank hq') h
    obtain ⟨rfl, hcolon⟩ := hq.append_inj hq' (by simp) (by simp) htail
    obtain ⟨rfl, hgroup⟩ := hr.append_inj hr' (hu.head_append_ne_blank _)
      (hu'.head_append_ne_blank _) (List.cons.inj hcolon).2
    obtain ⟨rfl, rfl, hlast⟩ := hu.unique hu' hgroup
    obtain ⟨rfl, hrests⟩ := hs.append_inj hs' hrest.ne_blank hrest'.ne_blank hlast
    exact ⟨rfl, rfl, hrests⟩
  | _, _, _, _, _, _, _, .key hp hk _, .alone hp' hu' _, _, _, h => by
    simp only [List.append_assoc] at h
    exact absurd h (hk.ne_group_behind_blank hp hp' hu')
  | _, _, _, _, _, _, _, .keyed hp hk _ _ _ _, .alone hp' hu' _, _, _, h => by
    simp only [List.append_assoc] at h
    exact absurd h (hk.ne_group_behind_blank hp hp' hu')
  | _, _, _, _, _, _, _, .alone hp hu _, .key hp' hk' _, _, _, h => by
    simp only [List.append_assoc] at h
    exact absurd h.symm (hk'.ne_group_behind_blank hp' hp hu)
  | _, _, _, _, _, _, _, .alone hp hu _, .keyed hp' hk' _ _ _ _, _, _, h => by
    simp only [List.append_assoc] at h
    exact absurd h.symm (hk'.ne_group_behind_blank hp' hp hu)
  | _, _, _, _, _, _, _, .alone hp hu hq, .alone hp' hu' hq', hrest, hrest', h => by
    simp only [List.append_assoc] at h
    obtain ⟨rfl, hgroup⟩ :=
      hp.append_inj hp' (hu.head_append_ne_blank _) (hu'.head_append_ne_blank _) h
    obtain ⟨rfl, rfl, hlast⟩ := hu.unique hu' hgroup
    obtain ⟨rfl, hrests⟩ := hq.append_inj hq' hrest.ne_blank hrest'.ne_blank hlast
    exact ⟨rfl, rfl, hrests⟩
  termination_by structural _ _ _ _ _ _ _ h => h
end

/-- A rule derives from the grammar with one tree only. -/
theorem Spells.unique {tree tree' : Tree} {rule : List Char} (h : Spells tree rule)
    (h' : Spells tree' rule) : tree = tree' := by
  cases h with
  | @group _ p u q hp hu hq =>
    generalize hrule : p ++ u ++ q = rule at h'
    rw [List.append_assoc] at hrule
    cases h' with
    | @group _ p' u' q' hp' hu' hq' =>
      rw [List.append_assoc] at hrule
      obtain ⟨rfl, hgroup⟩ :=
        hp.append_inj hp' (hu.head_append_ne_blank q) (hu'.head_append_ne_blank q') hrule
      exact (hu.unique hu' hgroup).1
    | entries hentries => exact absurd hrule.symm (hentries.ne_group hp hu)
  | entries hentries =>
    cases h' with
    | @group _ p' u' q' hp' hu' hq' =>
      exact absurd (List.append_assoc p' u' q') (hentries.ne_group hp' hu')
    | entries hentries' =>
      obtain ⟨rfl, -⟩ := hentries.unique hentries' endsEntries_nil endsEntries_nil rfl
      rfl

end Allowlist.Rule

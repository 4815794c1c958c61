import Allowlist.Path
import Allowlist.Proofs.Cut

/-!
# Proofs.Path — the path grammar

    path   := groups | head groups          (not empty)
    groups := ('[' text ']')* '[]'?

Head and texts are not empty and hold no brackets.  `groups?` reads bracket groups and nothing else
(`groups?_eq_some_iff`), `tokenize?` reads paths and nothing else (`tokenize?_eq_some_iff`).
-/

namespace Allowlist.Path

/-- A text that is not empty and holds no brackets. -/
structure Plain (text : List Char) : Prop where
  ne_nil : text ≠ []
  plain : ∀ c ∈ text, isPlain c = true

/-- Bracket groups, and at the end at most one that is empty. -/
inductive GroupsText : List Char → List Hop → Prop
  | nil : GroupsText [] []
  | anonymous : GroupsText ['[', ']'] [.anonymous]
  | bracket {text rest : List Char} {hops : List Hop} :
      Plain text → GroupsText rest hops →
      GroupsText ('[' :: (text ++ ']' :: rest)) (.bracket (String.ofList text) :: hops)

/-- A path with its hops. -/
inductive PathText : List Char → List Hop → Prop
  | groups {cs : List Char} {hops : List Hop} : cs ≠ [] → GroupsText cs hops → PathText cs hops
  | head {text cs : List Char} {hops : List Hop} :
      Plain text → GroupsText cs hops →
      PathText (text ++ cs) (.name (String.ofList text) :: hops)

/-! ### Plain texts -/

theorem isPlain_close : isPlain ']' = false := by decide

/-- A text of digits holds no brackets and is not empty. -/
theorem plain_of_isDecimal {text : String} (h : isDecimal text = true) : Plain text.toList := by
  unfold isDecimal at h
  rw [Bool.and_eq_true, bne_iff_ne, List.all_eq_true] at h
  refine ⟨h.1, fun c hc => ?_⟩
  have hdigit := h.2 c hc
  have hopen : c ≠ '[' := by
    rintro rfl
    exact absurd hdigit (by decide)
  have hclose : c ≠ ']' := by
    rintro rfl
    exact absurd hdigit (by decide)
  simp [isPlain, hopen, hclose]

theorem takeWhile_plain {text : List Char} (h : ∀ c ∈ text, isPlain c = true) {b : Char}
    (hb : isPlain b = false) (rest : List Char) :
    (text ++ b :: rest).takeWhile isPlain = text := by
  rw [List.takeWhile_append_of_pos h, List.takeWhile_cons_of_neg (by simp [hb]), List.append_nil]

theorem dropWhile_plain {text : List Char} (h : ∀ c ∈ text, isPlain c = true) {b : Char}
    (hb : isPlain b = false) (rest : List Char) :
    (text ++ b :: rest).dropWhile isPlain = b :: rest := by
  rw [List.dropWhile_append_of_pos h, List.dropWhile_cons_of_neg (by simp [hb])]

theorem plain_takeWhile {cs : List Char} (h : cs.takeWhile isPlain ≠ []) :
    Plain (cs.takeWhile isPlain) :=
  ⟨h, List.all_eq_true.mp List.all_takeWhile⟩

/-! ### Groups -/

theorem groups?_bracket {text : List Char} (h : Plain text) (rest : List Char) :
    groups? ('[' :: (text ++ ']' :: rest)) =
      (groups? rest).map (.bracket (String.ofList text) :: ·) := by
  obtain ⟨hne, hplain⟩ := h
  rw [groups?]
  split
  · next rest' hdrop =>
    rw [dropWhile_plain hplain isPlain_close] at hdrop
    cases hdrop
    rw [takeWhile_plain hplain isPlain_close]
    cases text with
    | nil => exact absurd rfl hne
    | cons c cs => rfl
  · next hdrop =>
    exact absurd (dropWhile_plain hplain isPlain_close rest) (hdrop rest)

theorem groups?_anonymous : groups? ['[', ']'] = some [.anonymous] := by
  rw [groups?]
  rfl

theorem groups?_cases {cs : List Char} {hops : List Hop} (h : groups? cs = some hops) :
    (cs = [] ∧ hops = []) ∨ (cs = ['[', ']'] ∧ hops = [.anonymous]) ∨
      ∃ text rest hops', Plain text ∧ cs = '[' :: (text ++ ']' :: rest) ∧
        groups? rest = some hops' ∧ hops = .bracket (String.ofList text) :: hops' := by
  rw [groups?.eq_def] at h
  split at h
  · cases h
    exact .inl ⟨rfl, rfl⟩
  · next cs =>
    split at h
    · next rest hdrop =>
      have hsplit := List.takeWhile_append_dropWhile (p := isPlain) (l := cs)
      rw [hdrop] at hsplit
      split at h
      · next htake =>
        rw [htake, List.nil_append] at hsplit
        by_cases hrest : rest = []
        · rw [if_pos hrest] at h
          cases h
          exact .inr (.inl ⟨by rw [← hsplit, hrest], rfl⟩)
        · rw [if_neg hrest] at h
          cases h
      · next htake =>
        obtain ⟨hops', hgroups, rfl⟩ := Option.map_eq_some_iff.mp h
        exact .inr (.inr ⟨_, rest, hops', plain_takeWhile htake, by rw [hsplit], hgroups, rfl⟩)
    · cases h
  · cases h

/-- The groups that are read are those of the grammar. -/
theorem groups?_eq_some_iff {cs : List Char} {hops : List Hop} :
    groups? cs = some hops ↔ GroupsText cs hops := by
  constructor
  · intro h
    induction hops generalizing cs with
    | nil =>
      obtain ⟨rfl, -⟩ | ⟨-, he⟩ | ⟨text, rest, hops', -, -, -, he⟩ := groups?_cases h
      · exact .nil
      · cases he
      · cases he
    | cons hop hops ih =>
      obtain ⟨-, he⟩ | ⟨rfl, he⟩ | ⟨text, rest, hops', htext, rfl, hrest, he⟩ := groups?_cases h
      · cases he
      · cases he
        exact .anonymous
      · cases he
        exact .bracket htext (ih hrest)
  · intro h
    induction h with
    | nil => rw [groups?]
    | anonymous => exact groups?_anonymous
    | bracket htext _ ih => rw [groups?_bracket htext, ih, Option.map_some]

/-- Groups are empty or start with a bracket. -/
theorem GroupsText.takeWhile_eq_nil {cs : List Char} {hops : List Hop} (h : GroupsText cs hops) :
    cs.takeWhile isPlain = [] := by
  cases h <;> rfl

/-! ### Paths -/

/-- The hops that are read are those of the grammar. -/
theorem tokenize?_eq_some_iff {path : String} {hops : List Hop} :
    tokenize? path = some hops ↔ PathText path.toList hops := by
  unfold tokenize?
  constructor
  · intro h
    split at h
    · by_cases hnil : path.toList = []
      · rw [if_pos hnil] at h
        cases h
      · rw [if_neg hnil] at h
        exact .groups hnil (groups?_eq_some_iff.mp h)
    · next hhead =>
      obtain ⟨hops', hgroups, rfl⟩ := Option.map_eq_some_iff.mp h
      have hpath := PathText.head (plain_takeWhile hhead) (groups?_eq_some_iff.mp hgroups)
      rwa [List.takeWhile_append_dropWhile] at hpath
  · intro h
    generalize path.toList = cs at h
    cases h with
    | groups hne hgroups =>
      rw [hgroups.takeWhile_eq_nil, groups?_eq_some_iff.mpr hgroups]
      simp only [if_neg hne]
    | @head text cs hops htext hgroups =>
      have htake : (text ++ cs).takeWhile isPlain = text := by
        rw [List.takeWhile_append_of_pos htext.plain, hgroups.takeWhile_eq_nil, List.append_nil]
      have hdrop : (text ++ cs).dropWhile isPlain = cs := by
        have hsplit := List.takeWhile_append_dropWhile (p := isPlain) (l := text ++ cs)
        rw [htake] at hsplit
        exact List.append_cancel_left hsplit
      rw [htake, hdrop, groups?_eq_some_iff.mpr hgroups]
      cases hnil : text with
      | nil => exact absurd hnil htext.ne_nil
      | cons c cs => rfl

theorem PathText.ne_nil {cs : List Char} {hops : List Hop} (h : PathText cs hops) : cs ≠ [] := by
  cases h with
  | groups hne _ => exact hne
  | head htext _ => exact fun he => htext.ne_nil (List.append_eq_nil_iff.mp he).1

/-- The groups of a path whose head is known. -/
theorem PathText.of_head {text cs : List Char} {hops : List Hop} (htext : Plain text)
    (hcs : cs.takeWhile isPlain = []) (h : PathText (text ++ cs) hops) :
    ∃ hops', GroupsText cs hops' ∧ hops = .name (String.ofList text) :: hops' := by
  have htake : (text ++ cs).takeWhile isPlain = text := by
    rw [List.takeWhile_append_of_pos htext.plain, hcs, List.append_nil]
  generalize hwhole : text ++ cs = whole at h htake
  cases h with
  | groups _ hgroups =>
    rw [hgroups.takeWhile_eq_nil] at htake
    exact absurd htake.symm htext.ne_nil
  | @head text' cs' hops htext' hgroups =>
    rw [List.takeWhile_append_of_pos htext'.plain, hgroups.takeWhile_eq_nil, List.append_nil]
      at htake
    subst htake
    obtain rfl := List.append_cancel_left hwhole
    exact ⟨hops, hgroups, rfl⟩

/-! ### Inside a path -/

theorem open_notMem {text : List Char} (h : ∀ c ∈ text, isPlain c = true) : '[' ∉ text :=
  fun hmem => absurd (h _ hmem) (by decide)

theorem close_notMem {text : List Char} (h : ∀ c ∈ text, isPlain c = true) : ']' ∉ text :=
  fun hmem => absurd (h _ hmem) (by decide)

/-- Every bracket that groups open is closed behind a text without brackets, and groups follow. -/
theorem GroupsText.of_open {cs front rest : List Char} {hops : List Hop} (h : GroupsText cs hops)
    (hcs : cs = front ++ '[' :: rest) :
    ∃ text more hops', (∀ c ∈ text, isPlain c = true) ∧ rest = text ++ ']' :: more ∧
      GroupsText more hops' := by
  induction h generalizing front with
  | nil => simp at hcs
  | anonymous =>
    cases front with
    | nil => exact ⟨[], [], [], nofun, (List.cons.inj hcs).2.symm, .nil⟩
    | cons c front =>
      have hclose : [']'] ++ [] = front ++ '[' :: rest := (List.cons.inj hcs).2
      obtain ⟨inner, -, hnil⟩ := Cut.behind_of_notMem (by decide) hclose
      simp at hnil
  | @bracket text more hops htext hmore ih =>
    cases front with
    | nil => exact ⟨text, more, hops, htext.plain, (List.cons.inj hcs).2.symm, hmore⟩
    | cons c front =>
      have hinside : (text ++ [']']) ++ more = front ++ '[' :: rest := by
        simpa using (List.cons.inj hcs).2
      have hopen : '[' ∉ text ++ [']'] := by simpa using open_notMem htext.plain
      obtain ⟨inner, -, hfront⟩ := Cut.behind_of_notMem hopen hinside
      exact ih hfront

theorem PathText.of_open {cs front rest : List Char} {hops : List Hop} (h : PathText cs hops)
    (hcs : cs = front ++ '[' :: rest) :
    ∃ text more hops', (∀ c ∈ text, isPlain c = true) ∧ rest = text ++ ']' :: more ∧
      GroupsText more hops' := by
  cases h with
  | groups _ hgroups => exact hgroups.of_open hcs
  | head htext hgroups =>
    obtain ⟨inner, -, hfront⟩ := Cut.behind_of_notMem (open_notMem htext.plain) hcs
    exact hgroups.of_open hfront

/-! ### The anonymous hop -/

/-- Only the last hop of a path is anonymous. -/
theorem GroupsText.anonymous_last {cs : List Char} {hops : List Hop} (h : GroupsText cs hops) :
    ∀ front back, hops = front ++ .anonymous :: back → back = [] := by
  induction h with
  | nil => simp
  | anonymous =>
    intro front back he
    cases front with
    | nil => exact (List.cons.inj he).2.symm
    | cons hop front => simp at he
  | bracket _ _ ih =>
    intro front back he
    cases front with
    | nil => simp at he
    | cons hop front => exact ih front back (List.cons.inj he).2

theorem PathText.anonymous_last {cs : List Char} {hops : List Hop} (h : PathText cs hops) :
    ∀ front back, hops = front ++ .anonymous :: back → back = [] := by
  cases h with
  | groups _ hgroups => exact hgroups.anonymous_last
  | head _ hgroups =>
    intro front back he
    cases front with
    | nil => simp at he
    | cons hop front => exact hgroups.anonymous_last front back (List.cons.inj he).2

/-- A path with an anonymous hop ends in `[]`. -/
theorem GroupsText.suffix_of_anonymous {cs : List Char} {hops : List Hop} (h : GroupsText cs hops)
    (hmem : .anonymous ∈ hops) : ['[', ']'] <:+ cs := by
  induction h with
  | nil => cases hmem
  | anonymous => exact List.suffix_refl _
  | @bracket text rest hops _ _ ih =>
    have hrest : rest <:+ '[' :: (text ++ ']' :: rest) := ⟨'[' :: (text ++ [']']), by simp⟩
    exact (ih (by simpa using hmem)).trans hrest

theorem PathText.suffix_of_anonymous {cs : List Char} {hops : List Hop} (h : PathText cs hops)
    (hmem : .anonymous ∈ hops) : ['[', ']'] <:+ cs := by
  cases h with
  | groups _ hgroups => exact hgroups.suffix_of_anonymous hmem
  | head _ hgroups =>
    exact (hgroups.suffix_of_anonymous (by simpa using hmem)).trans (List.suffix_append _ _)

end Allowlist.Path

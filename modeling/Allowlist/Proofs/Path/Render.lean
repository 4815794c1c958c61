import Allowlist.Proofs.Path
import Mathlib.Computability.Language

/-!
# Proofs.Path.Render — paths read, written, and scanned

A path is at most one head, bracketed texts, and at most one final `[]` (`Parts`).  Reading takes a
path to the hops of its parts, and writing the hops gives the path back.  Conversely hops stand for
a path when only the first is bare, only the last is anonymous, and no text is empty or holds a
bracket (`WellPlaced`); written, they are read again (`tokenize?_render`).

Reading in one pass agrees with three scans that know nothing of each other: the whole text is
matched against the regular language of paths, the head is cut off before the first bracket, and
the texts in brackets are found one after the other (`tokenize?_eq_some_iff_scanned`).
-/

namespace Allowlist.Path

open scoped Computability

/-! ### Writing hops -/

@[simp] theorem render_cons (hop : Hop) (hops : List Hop) :
    render (hop :: hops) = hop.render ++ render hops := by
  rw [render, List.map_cons, String.join_cons, render]

/-- The text of groups is written as it was read. -/
theorem GroupsText.render_eq {cs : List Char} {hops : List Hop} (h : GroupsText cs hops) :
    (render hops).toList = cs := by
  induction h with
  | nil => rfl
  | anonymous => rfl
  | bracket _ _ ih => simp [Hop.render, ih]

theorem PathText.render_eq {cs : List Char} {hops : List Hop} (h : PathText cs hops) :
    (render hops).toList = cs := by
  cases h with
  | groups _ hgroups => exact hgroups.render_eq
  | head _ hgroups => simp [Hop.render, hgroups.render_eq]

/-! ### Well-placed hops -/

/-- Only the first hop is bare, only the last is anonymous, and every text is one without brackets
that is not empty. -/
structure WellPlaced (hops : List Hop) : Prop where
  name_first : ∀ front text back, hops = front ++ .name text :: back → front = []
  anonymous_last : ∀ front back, hops = front ++ .anonymous :: back → back = []
  plain : ∀ hop ∈ hops, ∀ text, hop.text? = some text → Plain text.toList

/-- Groups hold no bare hop. -/
theorem GroupsText.ne_name {cs : List Char} {hops : List Hop} (h : GroupsText cs hops) :
    ∀ text, .name text ∉ hops := by
  induction h with
  | nil => simp
  | anonymous => simp
  | bracket _ _ ih => simpa using ih

theorem GroupsText.plain {cs : List Char} {hops : List Hop} (h : GroupsText cs hops) :
    ∀ hop ∈ hops, ∀ text, hop.text? = some text → Plain text.toList := by
  induction h with
  | nil => simp
  | anonymous => simp [Hop.text?]
  | bracket htext _ ih =>
    refine List.forall_mem_cons.mpr ⟨fun text he => ?_, ih⟩
    rw [← Option.some.inj he, String.toList_ofList]
    exact htext

theorem PathText.wellPlaced {cs : List Char} {hops : List Hop} (h : PathText cs hops) :
    WellPlaced hops := by
  refine ⟨?_, h.anonymous_last, ?_⟩
  · intro front text back he
    cases h with
    | groups _ hgroups => exact absurd (by simp [he]) (hgroups.ne_name text)
    | head _ hgroups =>
      cases front with
      | nil => rfl
      | cons hop front =>
        have hrest := (List.cons.inj he).2
        exact absurd (by simp [hrest]) (hgroups.ne_name text)
  · cases h with
    | groups _ hgroups => exact hgroups.plain
    | head htext hgroups =>
      refine List.forall_mem_cons.mpr ⟨fun text he => ?_, hgroups.plain⟩
      rw [← Option.some.inj he, String.toList_ofList]
      exact htext

theorem WellPlaced.tail {hop : Hop} {hops : List Hop} (h : WellPlaced (hop :: hops)) :
    WellPlaced hops where
  name_first front text back he := by
    have hfront := h.name_first (hop :: front) text back (by rw [he, List.cons_append])
    cases hfront
  anonymous_last front back he :=
    h.anonymous_last (hop :: front) back (by rw [he, List.cons_append])
  plain other hmem := h.plain other (List.mem_cons_of_mem _ hmem)

/-- Behind the first hop no hop is bare. -/
theorem WellPlaced.ne_name_of_mem_tail {hop : Hop} {hops : List Hop} (h : WellPlaced (hop :: hops))
    (text : String) : .name text ∉ hops := by
  intro hmem
  obtain ⟨front, back, rfl⟩ := List.append_of_mem hmem
  have hfront := h.name_first (hop :: front) text back rfl
  cases hfront

/-- Well-placed hops in brackets are written as groups. -/
theorem WellPlaced.groupsText : ∀ {hops : List Hop}, WellPlaced hops →
    (∀ text, .name text ∉ hops) → GroupsText (render hops).toList hops
  | [], _, _ => .nil
  | .name text :: _, _, hname => absurd List.mem_cons_self (hname text)
  | .anonymous :: hops, h, _ => by
    obtain rfl : hops = [] := h.anonymous_last [] hops rfl
    exact .anonymous
  | .bracket text :: hops, h, hname => by
    have hrest := h.tail.groupsText fun t ht => hname t (List.mem_cons_of_mem _ ht)
    have htext : Plain text.toList := h.plain _ List.mem_cons_self text rfl
    have hgroups := GroupsText.bracket htext hrest
    rw [String.ofList_toList] at hgroups
    simpa [Hop.render] using hgroups

/-- Well-placed hops are written as a path that spells them. -/
theorem WellPlaced.pathText {hops : List Hop} (h : WellPlaced hops) (hne : hops ≠ []) :
    PathText (render hops).toList hops := by
  cases hops with
  | nil => exact absurd rfl hne
  | cons hop hops =>
    have hrest := h.tail.groupsText h.ne_name_of_mem_tail
    cases hop with
    | name text =>
      have htext : Plain text.toList := h.plain _ List.mem_cons_self text rfl
      have hpath := PathText.head htext hrest
      rw [String.ofList_toList] at hpath
      simpa [Hop.render] using hpath
    | bracket text =>
      refine .groups (by simp [Hop.render]) (h.groupsText fun t ht => ?_)
      exact h.ne_name_of_mem_tail t (by simpa using ht)
    | anonymous =>
      refine .groups (by simp [Hop.render]) (h.groupsText fun t ht => ?_)
      exact h.ne_name_of_mem_tail t (by simpa using ht)

/-- Well-placed hops that are written are read again. -/
theorem tokenize?_render {hops : List Hop} (h : WellPlaced hops) (hne : hops ≠ []) :
    tokenize? (render hops) = some hops :=
  tokenize?_eq_some_iff.mpr (h.pathText hne)

/-- What is read is written again, and is well placed. -/
theorem render_of_tokenize? {path : String} {hops : List Hop} (h : tokenize? path = some hops) :
    render hops = path ∧ WellPlaced hops := by
  have hpath := tokenize?_eq_some_iff.mp h
  exact ⟨String.toList_inj.mp hpath.render_eq, hpath.wellPlaced⟩

/-! ### Parts -/

/-- What a path consists of: perhaps a head, texts in brackets, and perhaps a final `[]`. -/
structure Parts where
  head : Option String
  texts : List String
  marker : Bool

namespace Parts

/-- The text of the parts, one after the other. -/
def text (parts : Parts) : String :=
  parts.head.getD "" ++ String.join (parts.texts.map fun t => "[" ++ t ++ "]") ++
    if parts.marker then "[]" else ""

/-- The hop of each part. -/
def hops (parts : Parts) : List Hop :=
  parts.head.toList.map .name ++ parts.texts.map .bracket ++
    if parts.marker then [.anonymous] else []

/-- Head and texts hold no brackets, and none of them is empty. -/
structure IsPlain (parts : Parts) : Prop where
  head : ∀ t, parts.head = some t → Plain t.toList
  texts : ∀ t ∈ parts.texts, Plain t.toList

end Parts

/-- Groups are the parts that no head stands before. -/
theorem groupsText_iff {cs : List Char} {hops : List Hop} :
    GroupsText cs hops ↔ ∃ texts marker, (Parts.mk none texts marker).IsPlain ∧
      (Parts.mk none texts marker).text.toList = cs ∧
      (Parts.mk none texts marker).hops = hops := by
  constructor
  · intro h
    induction h with
    | nil => exact ⟨[], false, ⟨nofun, nofun⟩, rfl, rfl⟩
    | anonymous => exact ⟨[], true, ⟨nofun, nofun⟩, rfl, rfl⟩
    | @bracket text rest hops htext _ ih =>
      obtain ⟨texts, marker, hplain, rfl, rfl⟩ := ih
      refine ⟨String.ofList text :: texts, marker, ⟨nofun, ?_⟩, ?_, ?_⟩
      · exact List.forall_mem_cons.mpr ⟨by rwa [String.toList_ofList], hplain.texts⟩
      · simp [Parts.text]
      · simp [Parts.hops]
  · rintro ⟨texts, marker, hplain, rfl, rfl⟩
    have htexts := hplain.texts
    clear hplain
    induction texts with
    | nil =>
      cases marker with
      | false => exact .nil
      | true => exact .anonymous
    | cons t texts ih =>
      obtain ⟨ht, hrest⟩ := List.forall_mem_cons.mp htexts
      have hgroups := GroupsText.bracket ht (ih hrest)
      simpa [Parts.text, Parts.hops] using hgroups

/-- Paths are parts that are not all missing. -/
theorem pathText_iff {cs : List Char} {hops : List Hop} :
    PathText cs hops ↔ cs ≠ [] ∧
      ∃ parts : Parts, parts.IsPlain ∧ parts.text.toList = cs ∧ parts.hops = hops := by
  constructor
  · intro h
    refine ⟨h.ne_nil, ?_⟩
    cases h with
    | groups _ hgroups =>
      obtain ⟨texts, marker, hparts⟩ := groupsText_iff.mp hgroups
      exact ⟨_, hparts⟩
    | @head text cs hops htext hgroups =>
      obtain ⟨texts, marker, hplain, rfl, rfl⟩ := groupsText_iff.mp hgroups
      refine ⟨⟨some (String.ofList text), texts, marker⟩, ⟨?_, hplain.texts⟩, ?_, ?_⟩
      · rintro _ ⟨⟩
        rwa [String.toList_ofList]
      · simp [Parts.text]
      · simp [Parts.hops]
  · rintro ⟨hne, ⟨head, texts, marker⟩, hplain, rfl, rfl⟩
    have hgroups := groupsText_iff.mpr ⟨texts, marker, ⟨nofun, hplain.texts⟩, rfl, rfl⟩
    cases head with
    | none => exact .groups hne hgroups
    | some t =>
      have hpath := PathText.head (hplain.head t rfl) hgroups
      simpa [Parts.text, Parts.hops] using hpath

/-! ### Scans -/

/-- One or more characters other than brackets. -/
def plainRuns : Language Char := {text | Plain text}

/-- One text in brackets. -/
def bracketed : Language Char := {['[']} * plainRuns * {[']']}

/-- The regular language of paths and of the empty text: perhaps a head, texts in brackets, and
perhaps a final `[]`. -/
def grammar : Language Char := (1 + plainRuns) * (bracketed∗ * (1 + {['[', ']']}))

/-- The texts between an opening and a closing bracket with no bracket between them, found from left
to right. -/
def captures : List Char → List (List Char)
  | [] => []
  | c :: cs =>
    if c = '[' then
      match _h : cs.dropWhile isPlain with
      | ']' :: rest => cs.takeWhile isPlain :: captures rest
      | _ => captures cs
    else captures cs
termination_by cs => cs.length
decreasing_by
  · have := (List.dropWhile_suffix isPlain (l := cs)).length_le
    simp only [_h, List.length_cons] at this ⊢
    omega
  all_goals simp

/-- The hop of a text that was found between brackets. -/
def captured (text : List Char) : Hop :=
  if text = [] then .anonymous else .bracket (String.ofList text)

/-- The head, which ends before the first bracket, and the texts found behind it. -/
def scanned (path : String) : List Hop :=
  let head := path.toList.takeWhile (· != '[')
  (if head = [] then [] else [.name (String.ofList head)]) ++
    (captures (path.toList.dropWhile (· != '['))).map captured

theorem mem_bracketed_iff {cs : List Char} :
    cs ∈ bracketed ↔ ∃ text, Plain text ∧ cs = '[' :: (text ++ [']']) := by
  unfold bracketed
  constructor
  · rintro ⟨_, ⟨_, rfl, text, htext, rfl⟩, _, rfl, rfl⟩
    exact ⟨text, htext, by simp⟩
  · rintro ⟨text, htext, rfl⟩
    exact ⟨'[' :: text, ⟨['['], rfl, text, htext, rfl⟩, [']'], rfl, by simp⟩

/-- The groups of paths are a regular language. -/
theorem exists_groupsText_iff {cs : List Char} :
    (∃ hops, GroupsText cs hops) ↔ cs ∈ bracketed∗ * (1 + {['[', ']']}) := by
  constructor
  · rintro ⟨hops, h⟩
    induction h with
    | nil => exact ⟨[], Language.nil_mem_kstar _, [], .inl rfl, rfl⟩
    | anonymous => exact ⟨[], Language.nil_mem_kstar _, _, .inr rfl, rfl⟩
    | @bracket text rest hops htext _ ih =>
      obtain ⟨_, ⟨words, rfl, hwords⟩, last, hlast, rfl⟩ := ih
      have hfirst : '[' :: (text ++ [']']) ∈ bracketed := mem_bracketed_iff.mpr ⟨text, htext, rfl⟩
      refine ⟨_, ⟨('[' :: (text ++ [']'])) :: words, rfl, ?_⟩, last, hlast, by simp⟩
      exact List.forall_mem_cons.mpr ⟨hfirst, hwords⟩
  · rintro ⟨_, ⟨words, rfl, hwords⟩, last, hlast, rfl⟩
    induction words with
    | nil =>
      rcases hlast with rfl | rfl
      · exact ⟨[], .nil⟩
      · exact ⟨[.anonymous], .anonymous⟩
    | cons word words ih =>
      obtain ⟨hword, hrest⟩ := List.forall_mem_cons.mp hwords
      obtain ⟨text, htext, rfl⟩ := mem_bracketed_iff.mp hword
      obtain ⟨hops, hgroups⟩ := ih hrest
      exact ⟨_, by simpa using GroupsText.bracket htext hgroups⟩

/-- The texts that the grammar matches are the paths, and the empty text. -/
theorem mem_grammar_iff {cs : List Char} (hne : cs ≠ []) :
    cs ∈ grammar ↔ ∃ hops, PathText cs hops := by
  unfold grammar
  constructor
  · rintro ⟨head, hhead, groups, hgroups, rfl⟩
    obtain ⟨hops, hgroups⟩ := exists_groupsText_iff.mpr hgroups
    rcases hhead with rfl | hhead
    · exact ⟨hops, .groups hne hgroups⟩
    · exact ⟨_, .head hhead hgroups⟩
  · rintro ⟨hops, h⟩
    cases h with
    | groups _ hgroups => exact ⟨[], .inl rfl, cs, exists_groupsText_iff.mp ⟨_, hgroups⟩, rfl⟩
    | @head text cs hops htext hgroups =>
      exact ⟨text, .inr htext, cs, exists_groupsText_iff.mp ⟨_, hgroups⟩, rfl⟩

theorem captures_bracket {text : List Char} (h : ∀ c ∈ text, isPlain c = true)
    (rest : List Char) : captures ('[' :: (text ++ ']' :: rest)) = text :: captures rest := by
  rw [captures, if_pos rfl]
  split
  · next rest' hdrop =>
    rw [dropWhile_plain h isPlain_close] at hdrop
    cases hdrop
    rw [takeWhile_plain h isPlain_close]
  · next hdrop => exact absurd (dropWhile_plain h isPlain_close rest) (hdrop rest)

/-- In groups every text is found. -/
theorem GroupsText.map_captures {cs : List Char} {hops : List Hop} (h : GroupsText cs hops) :
    (captures cs).map captured = hops := by
  induction h with
  | nil => rw [captures, List.map_nil]
  | anonymous =>
    have hplain : ∀ c ∈ ([] : List Char), isPlain c = true := nofun
    have hcaptures := captures_bracket hplain []
    rw [List.nil_append] at hcaptures
    rw [hcaptures, captures]
    rfl
  | bracket htext _ ih =>
    rw [captures_bracket htext.plain, List.map_cons, ih, captured, if_neg htext.ne_nil]

/-- Before the first opening bracket stands the head. -/
theorem GroupsText.span_head {text cs : List Char} {hops : List Hop} (h : GroupsText cs hops)
    (htext : '[' ∉ text) :
    (text ++ cs).takeWhile (· != '[') = text ∧ (text ++ cs).dropWhile (· != '[') = cs := by
  have hall : ∀ c ∈ text, (c != '[') = true := by
    intro c hc
    exact bne_iff_ne.mpr fun he => htext (he ▸ hc)
  rw [List.takeWhile_append_of_pos hall, List.dropWhile_append_of_pos hall]
  cases h <;> simp

theorem PathText.scanned_eq {path : String} {hops : List Hop} (h : PathText path.toList hops) :
    scanned path = hops := by
  unfold scanned
  generalize path.toList = cs at h
  cases h with
  | groups _ hgroups =>
    have hnone : '[' ∉ ([] : List Char) := List.not_mem_nil
    obtain ⟨htake, hdrop⟩ := hgroups.span_head hnone
    rw [List.nil_append] at htake hdrop
    simp only [htake, hdrop, hgroups.map_captures, if_true, List.nil_append]
  | head htext hgroups =>
    obtain ⟨htake, hdrop⟩ := hgroups.span_head (open_notMem htext.plain)
    simp only [htake, hdrop, hgroups.map_captures, if_neg htext.ne_nil, List.singleton_append]

/-- Reading in one pass is matching the whole text first and then scanning it for the hops. -/
theorem tokenize?_eq_some_iff_scanned {path : String} {hops : List Hop} :
    tokenize? path = some hops ↔
      path ≠ "" ∧ path.toList ∈ grammar ∧ scanned path = hops := by
  rw [tokenize?_eq_some_iff]
  constructor
  · intro h
    have hne : path.toList ≠ [] := h.ne_nil
    exact ⟨by simpa using hne, (mem_grammar_iff hne).mpr ⟨hops, h⟩, h.scanned_eq⟩
  · rintro ⟨hne, hgrammar, hscanned⟩
    obtain ⟨hops', h⟩ := (mem_grammar_iff (by simpa using hne)).mp hgrammar
    rwa [← hscanned, h.scanned_eq]

/-! ### Reading and writing -/

/-- Exactly the texts of parts are read, and as the hops of the parts, which three scans find as
well; what is read is written again, with bare hops only first and anonymous hops only last.
Conversely, hops that are so placed are written as a path that reads as these hops. -/
theorem tokenize?_inverse_render :
    (∀ (path : String) (hops : List Hop),
      (tokenize? path = some hops ↔
        path ≠ "" ∧ ∃ parts : Parts, parts.IsPlain ∧ parts.text = path ∧ parts.hops = hops) ∧
      (tokenize? path = some hops ↔
        path ≠ "" ∧ path.toList ∈ grammar ∧ scanned path = hops) ∧
      (tokenize? path = some hops → render hops = path ∧ WellPlaced hops)) ∧
    ∀ hops : List Hop, hops ≠ [] → WellPlaced hops → tokenize? (render hops) = some hops := by
  refine ⟨fun path hops => ⟨?_, tokenize?_eq_some_iff_scanned, render_of_tokenize?⟩,
    fun hops hne h => tokenize?_render h hne⟩
  rw [tokenize?_eq_some_iff, pathText_iff]
  simp only [ne_eq, String.toList_eq_nil_iff, String.toList_inj]

/-- A path with a head that is no name, a text with a blank, a number and the marker at its end, read
and written back and forth. -/
theorem tokenize?_inverse_render_marker :
    let hops : List Hop := [.name "ä", .bracket "x 1", .bracket "0", .anonymous]
    (tokenize? "ä[x 1][0][]" = some hops ∧ render hops = "ä[x 1][0][]") ∧
      hops ≠ [] ∧ WellPlaced hops ∧ tokenize? (render hops) = some hops := by
  intro hops
  have hread : tokenize? "ä[x 1][0][]" = some hops := by decide +kernel
  obtain ⟨hrender, hplaced⟩ := (tokenize?_inverse_render.1 _ _).2.2 hread
  have hne : hops ≠ [] := List.cons_ne_nil _ _
  exact ⟨⟨hread, hrender⟩, hne, hplaced, tokenize?_inverse_render.2 hops hne hplaced⟩

end Allowlist.Path

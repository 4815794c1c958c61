import Allowlist.Proofs.Document.Renumber
import Allowlist.Proofs.Path.Render

/-!
# Proofs.Document.RenumberKeys — keys with new numbers

A path is written with a new number for each position (`Path.renumber`), and reads as the steps with
these numbers (`Path.steps?_renumber`).  Keys with new numbers come in another order.  But when no
number has leading zeros, keys of one place differ in the brackets of their first text alone, and
keep their order (`Path.renumber_lt`).
-/

namespace Allowlist

/-! ### Texts and hops with new numbers -/

/-- The text with the digits of a new number, if it is a number. -/
def renumberText (f : Nat → Nat) (text : String) : String :=
  if isDecimal text then toString (f (Nat.ofDigitChars 10 text.toList 0)) else text

theorem isDecimal_renumberText (f : Nat → Nat) (text : String) :
    isDecimal (renumberText f text) = isDecimal text := by
  unfold renumberText
  split_ifs with hdecimal
  · rw [isDecimal_toString, hdecimal]
  · rfl

namespace Hop

/-- The hop with a new number, if it is one. -/
def renumber (f : Nat → Nat) : Hop → Hop
  | name text => name (renumberText f text)
  | bracket text => bracket (renumberText f text)
  | anonymous => anonymous

theorem text?_renumber (f : Nat → Nat) (hop : Hop) :
    (hop.renumber f).text? = hop.text?.map (renumberText f) := by
  cases hop <;> rfl

theorem reading_renumber (f : Nat → Nat) (hop : Hop) :
    (hop.renumber f).reading = hop.reading.renumber f := by
  unfold reading
  rw [text?_renumber]
  cases hop.text? with
  | none => rfl
  | some text =>
    rw [Option.map_some]
    dsimp only
    rw [isDecimal_renumberText]
    split_ifs with hdecimal
    · rw [renumberText, if_pos hdecimal, ofDigitChars_toString, Step.renumber]
    · rw [renumberText, if_neg hdecimal, Step.renumber]

/-- A number is written without leading zeros. -/
def Canonical (hop : Hop) : Prop :=
  ∀ text ∈ hop.text?, isDecimal text → toString (Nat.ofDigitChars 10 text.toList 0) = text

instance (hop : Hop) : Decidable hop.Canonical :=
  inferInstanceAs (Decidable (∀ text ∈ hop.text?, _ → _))

/-- A canonical hop has the text of its step. -/
theorem Canonical.text?_eq {a b : Hop} (ha : a.Canonical) (hb : b.Canonical)
    (h : a.reading = b.reading) : a.text? = b.text? := by
  unfold reading at h
  cases hta : a.text? with
  | none =>
    cases htb : b.text? with
    | none => rfl
    | some u =>
      rw [hta, htb] at h
      dsimp only at h
      split_ifs at h
  | some t =>
    cases htb : b.text? with
    | none =>
      rw [hta, htb] at h
      dsimp only at h
      split_ifs at h
    | some u =>
      rw [hta, htb] at h
      dsimp only at h
      split_ifs at h with hdt hdu
      · rw [← ha t hta hdt, ← hb u htb hdu, Step.index.inj h]
      · rw [Step.member.inj h]

/-- Canonical hops with one step differ in the brackets of a head alone. -/
theorem Canonical.eq_of_reading {a b : Hop} (ha : a.Canonical) (hb : b.Canonical)
    (h : a.reading = b.reading) :
    a = b ∨ ∃ text, (a = name text ∧ b = bracket text) ∨ (a = bracket text ∧ b = name text) := by
  have htext := ha.text?_eq hb h
  cases a <;> cases b <;> cases htext
  case name.name => exact .inl rfl
  case name.bracket text => exact .inr ⟨text, .inl ⟨rfl, rfl⟩⟩
  case bracket.name text => exact .inr ⟨text, .inr ⟨rfl, rfl⟩⟩
  case bracket.bracket => exact .inl rfl
  case anonymous.anonymous => exact .inl rfl

end Hop

/-- The hops with new numbers; arrays are addressed by the old ones. -/
def Renumbering.hops : Renumbering → List Hop → List Hop
  | _, [] => []
  | g, hop :: rest => hop.renumber (g []) :: (g.behind hop.reading).hops rest

theorem Renumbering.map_reading_hops (g : Renumbering) (hops : List Hop) :
    (g.hops hops).map Hop.reading = g.steps (hops.map Hop.reading) := by
  induction hops generalizing g with
  | nil => rfl
  | cons hop rest ih =>
    rw [Renumbering.hops, List.map_cons, List.map_cons, ih, Hop.reading_renumber, steps]

/-! ### Paths with new numbers -/

namespace Path

/-- The path with new numbers, if it is one. -/
def renumber (g : Renumbering) (path : String) : String :=
  match tokenize? path with
  | none => path
  | some hops => render (g.hops hops)

/-- No number of the path has leading zeros. -/
def Canonical (path : String) : Prop :=
  ∀ hops ∈ tokenize? path, ∀ hop ∈ hops, hop.Canonical

instance (path : String) : Decidable (Canonical path) :=
  inferInstanceAs (Decidable (∀ hops ∈ tokenize? path, ∀ hop ∈ hops, hop.Canonical))

theorem plain_renumberText {text : String} (h : Plain text.toList) (f : Nat → Nat) :
    Plain (renumberText f text).toList := by
  unfold renumberText
  split_ifs
  · exact plain_of_isDecimal (isDecimal_toString _)
  · exact h

/-- Groups stay groups. -/
theorem GroupsText.renumber {cs : List Char} {hops : List Hop} (h : GroupsText cs hops)
    (g : Renumbering) : GroupsText (render (g.hops hops)).toList (g.hops hops) := by
  induction h generalizing g with
  | nil => exact .nil
  | anonymous =>
    simpa [Renumbering.hops, Hop.renumber, Hop.render, render] using GroupsText.anonymous
  | @bracket text rest hops htext _ ih =>
    have hplain : Plain (String.ofList text).toList := by simpa using htext
    have hrest := ih (g.behind (Hop.bracket (String.ofList text)).reading)
    have hgroups := GroupsText.bracket (plain_renumberText hplain (g [])) hrest
    rw [String.ofList_toList] at hgroups
    simpa [Renumbering.hops, Hop.renumber, Hop.render] using hgroups

/-- A path stays a path. -/
theorem PathText.renumber {cs : List Char} {hops : List Hop} (h : PathText cs hops)
    (g : Renumbering) : PathText (render (g.hops hops)).toList (g.hops hops) := by
  cases h with
  | groups hne hgroups =>
    have hnew := hgroups.renumber g
    refine .groups (fun hnil => hne ?_) hnew
    rw [hnil] at hnew
    cases hgroups with
    | nil => rfl
    | anonymous => cases hnew
    | bracket _ _ => cases hnew
  | @head text cs hops htext hgroups =>
    have hplain : Plain (String.ofList text).toList := by simpa using htext
    have hrest := hgroups.renumber (g.behind (Hop.name (String.ofList text)).reading)
    have hpath := PathText.head (plain_renumberText hplain (g [])) hrest
    rw [String.ofList_toList] at hpath
    simpa [Renumbering.hops, Hop.renumber, Hop.render] using hpath

theorem tokenize?_renumber (g : Renumbering) (path : String) :
    tokenize? (renumber g path) = (tokenize? path).map g.hops := by
  unfold renumber
  cases h : tokenize? path with
  | none => exact h
  | some hops =>
    exact tokenize?_eq_some_iff.mpr ((tokenize?_eq_some_iff.mp h).renumber g)

/-- The steps of the path get new numbers. -/
theorem steps?_renumber (g : Renumbering) (path : String) :
    steps? (renumber g path) = (steps? path).map g.steps := by
  rw [steps?, steps?, tokenize?_renumber, Option.map_map, Option.map_map]
  exact congrArg (Option.map · _) (funext g.map_reading_hops)

/-! ### The order of keys -/

theorem lt_open_of_isDecimal {text : String} (h : isDecimal text = true) : text < "[" := by
  unfold isDecimal at h
  rw [Bool.and_eq_true, bne_iff_ne, List.all_eq_true] at h
  obtain ⟨hne, hdigits⟩ := h
  rw [String.lt_iff]
  obtain ⟨c, cs, hcs⟩ := List.exists_cons_of_ne_nil hne
  have hdigit := Char.isDigit_iff_toNat.mp (hdigits c (hcs ▸ List.mem_cons_self))
  rw [hcs]
  refine List.cons_lt_cons_iff.mpr (.inl ?_)
  rw [Char.lt_def, UInt32.lt_iff_toNat_lt]
  exact lt_of_le_of_lt hdigit.2 (by decide)

/-- Whether a head comes before the same text in brackets is decided by its first character. -/
theorem render_lt_render_iff {text : String} (h : Plain text.toList) (rest more : List Hop) :
    (render (.name text :: rest) < render (.bracket text :: more) ↔ text < "[") ∧
      (render (.bracket text :: more) < render (.name text :: rest) ↔ "[" < text) := by
  obtain ⟨c, cs, hcs⟩ := List.exists_cons_of_ne_nil h.ne_nil
  have hc : c ≠ '[' := by
    rintro rfl
    exact open_notMem h.plain (hcs ▸ List.mem_cons_self)
  simp only [String.lt_iff]
  simp [Hop.render, hcs, List.cons_lt_cons_iff, hc, hc.symm]

theorem renumberText_lt_open {text : String} (h : text < "[") (f : Nat → Nat) :
    renumberText f text < "[" := by
  unfold renumberText
  split_ifs
  · exact lt_open_of_isDecimal (isDecimal_toString _)
  · exact h

theorem open_lt_renumberText {text : String} (h : "[" < text) (f : Nat → Nat) :
    "[" < renumberText f text := by
  unfold renumberText
  split_ifs with hdecimal
  · exact absurd (Std.lt_trans h (lt_open_of_isDecimal hdecimal)) Std.lt_irrefl
  · exact h

/-- Groups without leading zeros are determined by their steps. -/
theorem eq_of_map_reading {as bs : List Hop} (ha : ∀ hop ∈ as, hop.Canonical)
    (hb : ∀ hop ∈ bs, hop.Canonical) (hna : ∀ text, .name text ∉ as)
    (hnb : ∀ text, .name text ∉ bs) (h : as.map Hop.reading = bs.map Hop.reading) : as = bs := by
  induction as generalizing bs with
  | nil => exact (List.map_eq_nil_iff.mp h.symm).symm
  | cons a as ih =>
    obtain ⟨b, rest, rfl, hreading, hrest⟩ := List.map_eq_cons_iff.mp h.symm
    simp only [List.mem_cons, not_or, forall_and] at hna hnb
    obtain ⟨ha, has⟩ := List.forall_mem_cons.mp ha
    obtain ⟨hb, hbs⟩ := List.forall_mem_cons.mp hb
    rw [ih has hbs hna.2 hnb.2 hrest.symm]
    obtain rfl | ⟨text, ⟨rfl, -⟩ | ⟨-, rfl⟩⟩ := ha.eq_of_reading hb hreading.symm
    · rfl
    · exact absurd rfl (hna.1 text)
    · exact absurd rfl (hnb.1 text)

/-- Among the keys of one place, the order stays. -/
theorem renumber_lt {a b : String} (ha : Canonical a) (hb : Canonical b) {steps : List Step}
    (hsa : steps? a = some steps) (hsb : steps? b = some steps) (hlt : a < b) (g : Renumbering) :
    renumber g a < renumber g b := by
  obtain ⟨as, hta, hra⟩ := Option.map_eq_some_iff.mp hsa
  obtain ⟨bs, htb, hrb⟩ := Option.map_eq_some_iff.mp hsb
  obtain ⟨rfl, hwa⟩ := render_of_tokenize? hta
  obtain ⟨rfl, hwb⟩ := render_of_tokenize? htb
  have hcanonical := ha as hta
  have hcanonical' := hb bs htb
  have hmap := hra.trans hrb.symm
  simp only [renumber, hta, htb]
  cases as with
  | nil =>
    rw [List.map_eq_nil_iff.mp hmap.symm] at hlt
    exact absurd hlt Std.lt_irrefl
  | cons a as =>
    obtain ⟨b, rest, rfl, hreading, hrest⟩ := List.map_eq_cons_iff.mp hmap.symm
    obtain ⟨hfirst, has⟩ := List.forall_mem_cons.mp hcanonical
    obtain ⟨hfirst', hbs⟩ := List.forall_mem_cons.mp hcanonical'
    obtain rfl := eq_of_map_reading has hbs hwa.ne_name_of_mem_tail hwb.ne_name_of_mem_tail
      hrest.symm
    obtain rfl | ⟨text, ⟨rfl, rfl⟩ | ⟨rfl, rfl⟩⟩ := hfirst.eq_of_reading hfirst' hreading.symm
    · exact absurd hlt Std.lt_irrefl
    · have htext : Plain text.toList := hwa.plain _ List.mem_cons_self text rfl
      have hopen := ((render_lt_render_iff htext _ _).1).mp hlt
      exact ((render_lt_render_iff (plain_renumberText htext (g [])) _ _).1).mpr
        (renumberText_lt_open hopen (g []))
    · have htext : Plain text.toList := hwa.plain _ List.mem_cons_self text rfl
      have hopen := ((render_lt_render_iff htext _ _).2).mp hlt
      exact ((render_lt_render_iff (plain_renumberText htext (g [])) _ _).2).mpr
        (open_lt_renumberText hopen (g []))

end Path

end Allowlist

import Allowlist.Proofs.Rule.Alike
import Allowlist.Proofs.Rule.Compile
import Allowlist.Proofs.Rule.Unambiguous
import Mathlib.Data.List.Perm.Basic
import Mathlib.Data.String.Basic

/-!
# Proofs.Rule.Reordered — rules with their entries in another order

A rule is reordered by moving what stands between commas: in the body of any group, inside groups
that are moved or not, and in a rule without braces at the top.  `GroupReordered` and
`RuleReordered` relate the texts before and after.  Blanks may move with an entry or stay where they
are, as long as the two rules have the same characters (`Reordered`).

Reordered texts both derive from the grammar, and their trees are alike, so a rule compiles when the
reordered rule does, and the two shapes are alike (`Reordered.compileAlike`).
-/

namespace Allowlist.Rule

/-- The text with blanks before and behind it. -/
def Padded (core text : List Char) : Prop :=
  ∃ p q, Blank p ∧ Blank q ∧ text = p ++ core ++ q

mutual
/-- A group and the same group with entries moved. -/
inductive GroupReordered : List Char → List Char → Prop
  | group {kind : GroupKind} {body body' : List Char} :
      BodyReordered kind body body' →
      GroupReordered (kind.opener :: (body ++ [kind.closer]))
        (kind.opener :: (body' ++ [kind.closer]))

inductive BodyReordered : GroupKind → List Char → List Char → Prop
  | blank {kind : GroupKind} {p p' : List Char} : Blank p → Blank p' → BodyReordered kind p p'
  | entries {kind : GroupKind} {text text' : List Char} :
      EntriesReordered kind text text' → BodyReordered kind text text'

/-- Texts with commas between them, each with entries moved inside, and then these texts moved. -/
inductive EntriesReordered : GroupKind → List Char → List Char → Prop
  | moved {kind : GroupKind} {texts inside moved : List (List Char)} :
      texts ≠ [] → EachReordered kind texts inside → inside.Perm moved →
      EntriesReordered kind ([','].intercalate texts) ([','].intercalate moved)

inductive EachReordered : GroupKind → List (List Char) → List (List Char) → Prop
  | nil {kind : GroupKind} : EachReordered kind [] []
  | cons {kind : GroupKind} {text text' : List Char} {texts texts' : List (List Char)} :
      EntryReordered kind text text' → EachReordered kind texts texts' →
      EachReordered kind (text :: texts) (text' :: texts')

/-- An entry with entries moved inside its group. -/
inductive EntryReordered : GroupKind → List Char → List Char → Prop
  | key {kind : GroupKind} {name : String} {k text text' : List Char} :
      KeyText name k → Padded k text → Padded k text' → EntryReordered kind text text'
  | keyed {kind : GroupKind} {name : String} {k u u' label label' target target' : List Char} :
      KeyText name k → Padded k label → Padded k label' →
      GroupReordered u u' → Padded u target → Padded u' target' →
      EntryReordered kind (label ++ ':' :: target) (label' ++ ':' :: target')
  | alone {u u' text text' : List Char} :
      GroupReordered u u' → Padded u text → Padded u' text' → EntryReordered .array text text'
end

/-- A rule of one group, or of the entries of an object, with entries moved. -/
inductive RuleReordered : List Char → List Char → Prop
  | group {u u' text text' : List Char} :
      GroupReordered u u' → Padded u text → Padded u' text' → RuleReordered text text'
  | entries {text text' : List Char} :
      EntriesReordered .object text text' → RuleReordered text text'

/-- The rule with entries moved, at the top or at any depth, and with the same characters. -/
structure Reordered (rule rule' : String) : Prop where
  chars : rule.toList.Perm rule'.toList
  texts : RuleReordered rule.toList rule'.toList

theorem Reordered.utf8ByteSize_eq {rule rule' : String} (h : Reordered rule rule') :
    rule.utf8ByteSize = rule'.utf8ByteSize := by
  have hlen : ∀ {cs cs' : List Char}, cs.Perm cs' → String.utf8Len cs = String.utf8Len cs' := by
    intro cs cs' hperm
    induction hperm with
    | nil => rfl
    | cons c _ ih => rw [String.utf8Len_cons, String.utf8Len_cons, ih]
    | swap c d cs =>
      simp only [String.utf8Len_cons]
      omega
    | trans _ _ ih ih' => exact ih.trans ih'
  rw [← String.utf8Len_toList, ← String.utf8Len_toList]
  exact hlen h.chars

/-! ### The rules that can be reordered -/

theorem Padded.self (core : List Char) : Padded core core :=
  ⟨[], [], Blank.nil, Blank.nil, by simp⟩

theorem Padded.of_blank {p core q : List Char} (hp : Blank p) (hq : Blank q) :
    Padded core (p ++ core ++ q) :=
  ⟨p, q, hp, hq, rfl⟩

mutual
theorem GroupText.reordered_self : {tree : Tree} → {u : List Char} → GroupText tree u →
    GroupReordered u u
  | _, _, .group hbody => .group hbody.reordered_self

theorem BodyText.reordered_self : {kind : GroupKind} → {entries : List (Option String × Tree)} →
    {body : List Char} → BodyText kind entries body → BodyReordered kind body body
  | _, _, _, .blank hp => .blank hp hp
  | _, _, _, .entries hentries => by
    obtain ⟨texts, hne, rfl, heach⟩ := hentries.reordered_self
    exact .entries (.moved hne heach (List.Perm.refl texts))

theorem EntriesText.reordered_self : {kind : GroupKind} →
    {entries : List (Option String × Tree)} → {text : List Char} →
    EntriesText kind entries text →
    ∃ texts, texts ≠ [] ∧ text = [','].intercalate texts ∧ EachReordered kind texts texts
  | _, _, _, .one hentry => ⟨[_], List.cons_ne_nil _ _, by simp, .cons hentry.reordered_self .nil⟩
  | _, _, _, .cons hentry hmore => by
    obtain ⟨texts, hne, rfl, heach⟩ := hmore.reordered_self
    obtain ⟨next, texts, rfl⟩ := List.exists_cons_of_ne_nil hne
    exact ⟨_, List.cons_ne_nil _ _, by simp [List.intercalate_cons_cons],
      .cons hentry.reordered_self heach⟩

theorem EntryText.reordered_self : {kind : GroupKind} → {entry : Option String × Tree} →
    {text : List Char} → EntryText kind entry text → EntryReordered kind text text
  | _, _, _, .key hp hk hq => .key hk (.of_blank hp hq) (.of_blank hp hq)
  | _, _, _, .keyed hp hk hq hr hu hs =>
    .keyed hk (.of_blank hp hq) (.of_blank hp hq) hu.reordered_self (.of_blank hr hs)
      (.of_blank hr hs)
  | _, _, _, .alone hp hu hq => .alone hu.reordered_self (.of_blank hp hq) (.of_blank hp hq)
end

/-! ### Reordered texts derive from the grammar -/

/-- The entry text of a key, with the blanks around the key and around its group. -/
theorem EntryText.of_padded {kind : GroupKind} {name : String} {tree : Tree}
    {k u label target : List Char} (hk : KeyText name k) (hlabel : Padded k label)
    (hu : GroupText tree u) (htarget : Padded u target) :
    EntryText kind (some name, tree) (label ++ ':' :: target) := by
  obtain ⟨p, q, hp, hq, rfl⟩ := hlabel
  obtain ⟨r, s, hr, hs, rfl⟩ := htarget
  exact .keyed hp hk hq hr hu hs

theorem EntryText.key_of_padded {kind : GroupKind} {name : String} {k text : List Char}
    (hk : KeyText name k) (htext : Padded k text) : EntryText kind (some name, .key) text := by
  obtain ⟨p, q, hp, hq, rfl⟩ := htext
  exact .key hp hk hq

theorem EntryText.alone_of_padded {tree : Tree} {u text : List Char} (hu : GroupText tree u)
    (htext : Padded u text) : EntryText .array (none, tree) text := by
  obtain ⟨p, q, hp, hq, rfl⟩ := htext
  exact .alone hp hu hq

mutual
theorem GroupReordered.exists_trees : {u u' : List Char} → GroupReordered u u' →
    ∃ tree tree', GroupText tree u ∧ GroupText tree' u' ∧ tree.Alike tree'
  | _, _, @GroupReordered.group kind _ _ hbody => by
    obtain ⟨es, fs, hes, hfs, hmatched⟩ := hbody.exists_trees
    exact ⟨_, _, .group hes, .group hfs, Tree.alike_group kind hmatched⟩

theorem BodyReordered.exists_trees : {kind : GroupKind} → {body body' : List Char} →
    BodyReordered kind body body' →
    ∃ es fs, BodyText kind es body ∧ BodyText kind fs body' ∧ Matched Tree.EntryAlike es fs
  | _, _, _, .blank hp hp' => ⟨[], [], .blank hp, .blank hp', .of_forall₂ .nil⟩
  | _, _, _, .entries hentries => by
    obtain ⟨es, fs, hes, hfs, hmatched⟩ := hentries.exists_trees
    exact ⟨es, fs, .entries hes, .entries hfs, hmatched⟩

theorem EntriesReordered.exists_trees : {kind : GroupKind} → {text text' : List Char} →
    EntriesReordered kind text text' →
    ∃ es fs, EntriesText kind es text ∧ EntriesText kind fs text' ∧
      Matched Tree.EntryAlike es fs
  | kind, _, _, @EntriesReordered.moved _ texts inside moved hne heach hperm => by
    obtain ⟨es, fs, hes, hfs, hinside⟩ := heach.exists_trees
    -- the trees move with the texts they are derived from
    obtain ⟨gs, hgs, hmoved⟩ := List.perm_comp_forall₂ hperm.symm hfs.flip
    have hmatched : Matched Tree.EntryAlike es gs :=
      (Matched.of_forall₂ hinside).congr (fun _ => Iff.rfl) fun _ => hmoved.mem_iff
    have hes_ne : es ≠ [] := by
      rintro rfl
      cases hes
      exact hne rfl
    have hgs_ne : gs ≠ [] := mt hmatched.eq_nil_iff.mpr hes_ne
    exact ⟨es, gs, .of_forall₂ Blank.nil hes hes_ne, .of_forall₂ Blank.nil hgs.flip hgs_ne, hmatched⟩

theorem EachReordered.exists_trees : {kind : GroupKind} → {texts texts' : List (List Char)} →
    EachReordered kind texts texts' →
    ∃ es fs, List.Forall₂ (EntryText kind) es texts ∧ List.Forall₂ (EntryText kind) fs texts' ∧
      List.Forall₂ Tree.EntryAlike es fs
  | _, _, _, .nil => ⟨[], [], .nil, .nil, .nil⟩
  | _, _, _, .cons hentry hmore => by
    obtain ⟨e, f, he, hf, hef⟩ := hentry.exists_trees
    obtain ⟨es, fs, hes, hfs, hall⟩ := hmore.exists_trees
    exact ⟨e :: es, f :: fs, .cons he hes, .cons hf hfs, .cons hef hall⟩

theorem EntryReordered.exists_trees : {kind : GroupKind} → {text text' : List Char} →
    EntryReordered kind text text' →
    ∃ e f, EntryText kind e text ∧ EntryText kind f text' ∧ Tree.EntryAlike e f
  | _, _, _, .key hk htext htext' =>
    ⟨_, _, .key_of_padded hk htext, .key_of_padded hk htext', rfl, .refl _⟩
  | _, _, _, .keyed hk hlabel hlabel' hgroup htarget htarget' => by
    obtain ⟨tree, tree', hu, hu', halike⟩ := hgroup.exists_trees
    exact ⟨_, _, .of_padded hk hlabel hu htarget, .of_padded hk hlabel' hu' htarget', rfl, halike⟩
  | _, _, _, .alone hgroup htext htext' => by
    obtain ⟨tree, tree', hu, hu', halike⟩ := hgroup.exists_trees
    exact ⟨_, _, .alone_of_padded hu htext, .alone_of_padded hu' htext', rfl, halike⟩
end

theorem RuleReordered.exists_trees {text text' : List Char} (h : RuleReordered text text') :
    ∃ tree tree', Spells tree text ∧ Spells tree' text' ∧ tree.Alike tree' := by
  cases h with
  | group hgroup htext htext' =>
    obtain ⟨tree, tree', hu, hu', halike⟩ := hgroup.exists_trees
    obtain ⟨p, q, hp, hq, rfl⟩ := htext
    obtain ⟨p', q', hp', hq', rfl⟩ := htext'
    exact ⟨tree, tree', .group hp hu hq, .group hp' hu' hq', halike⟩
  | entries hentries =>
    obtain ⟨es, fs, hes, hfs, hmatched⟩ := hentries.exists_trees
    exact ⟨_, _, .entries hes, .entries hfs, Tree.alike_group .object hmatched⟩

/-- The rules that can be reordered are those of the grammar. -/
theorem exists_ruleReordered_iff {text : List Char} :
    (∃ text', RuleReordered text text') ↔ ∃ tree, Spells tree text := by
  constructor
  · rintro ⟨text', h⟩
    obtain ⟨tree, -, hspells, -⟩ := h.exists_trees
    exact ⟨tree, hspells⟩
  · rintro ⟨tree, h⟩
    cases h with
    | group hp hu hq =>
      exact ⟨_, .group hu.reordered_self (.of_blank hp hq) (.of_blank hp hq)⟩
    | entries hentries =>
      obtain ⟨texts, hne, rfl, heach⟩ := hentries.reordered_self
      exact ⟨_, .entries (.moved hne heach (List.Perm.refl texts))⟩

/-! ### Reordered rules compile alike -/

/-- Rules that compile to alike shapes, or both do not compile. -/
structure CompileAlike (rule rule' : String) : Prop where
  left : ∀ s, compile rule = .ok s → ∃ s', compile rule' = .ok s' ∧ s.Alike s'
  right : ∀ s', compile rule' = .ok s' → ∃ s, compile rule = .ok s ∧ s.Alike s'

theorem CompileAlike.refl (rule : String) : CompileAlike rule rule :=
  ⟨fun s hs => ⟨s, hs, .refl s⟩, fun s hs => ⟨s, hs, .refl s⟩⟩

theorem CompileAlike.symm {rule rule' : String} (h : CompileAlike rule rule') :
    CompileAlike rule' rule :=
  ⟨fun s hs => (h.right s hs).imp fun _ ⟨hr, ha⟩ => ⟨hr, ha.symm⟩,
    fun s hs => (h.left s hs).imp fun _ ⟨hr, ha⟩ => ⟨hr, ha.symm⟩⟩

/-- What a rule compiles to, a rule of its length with an alike tree compiles to alike. -/
theorem exists_compile_of_alike {rule rule' : String} {tree tree' : Tree}
    (hspells : Spells tree rule.toList) (hspells' : Spells tree' rule'.toList)
    (halike : tree.Alike tree') (hsize : rule.utf8ByteSize = rule'.utf8ByteSize) {s : Shape}
    (hs : compile rule = .ok s) : ∃ s', compile rule' = .ok s' ∧ s.Alike s' := by
  obtain ⟨hlength, other, hother, htree, hdepth⟩ := exists_tree_of_compile hs
  obtain rfl := hspells.unique hother
  obtain ⟨s', htree', hs'⟩ := halike.left s htree
  exact ⟨s', compile_of_spells (hsize ▸ hlength) hspells' htree' (hs'.depth ▸ hdepth), hs'⟩

theorem Reordered.compileAlike {rule rule' : String} (h : Reordered rule rule') :
    CompileAlike rule rule' := by
  obtain ⟨tree, tree', hspells, hspells', halike⟩ := h.texts.exists_trees
  have hsize := h.utf8ByteSize_eq
  refine ⟨fun s hs => exists_compile_of_alike hspells hspells' halike hsize hs, fun s hs => ?_⟩
  obtain ⟨s', hs', ha⟩ := exists_compile_of_alike hspells' hspells halike.symm hsize.symm hs
  exact ⟨s', hs', ha.symm⟩

end Allowlist.Rule

import Allowlist.Proofs.Cut

/-!
# Proofs.Bytes — texts addressed by byte offsets

A text is cut, sliced and spliced at byte offsets of its UTF-8 form.  `none` stands for the crash on
an offset that is past the end of the text or inside one of its characters.
-/

namespace Allowlist.Bytes

variable {β : Type}

/-- The length of a text in bytes. -/
def size : List Char → Nat
  | [] => 0
  | c :: text => c.utf8Size + size text

/-- The text before and after an offset. -/
def cut? : List Char → Nat → Option (List Char × List Char)
  | text, 0 => some ([], text)
  | [], _ + 1 => none
  | c :: text, offset + 1 =>
    if c.utf8Size ≤ offset + 1 then
      (cut? text (offset + 1 - c.utf8Size)).map fun (front, back) => (c :: front, back)
    else none

/-- The text between two offsets. -/
def slice? (text : List Char) (start stop : Nat) : Option (List Char) := do
  let (front, _) ← cut? text stop
  let (_, part) ← cut? front start
  return part

/-- The text with other text in the place of what stands between two offsets. -/
def splice? (text : List Char) (start stop : Nat) (new : List Char) : Option (List Char) := do
  let (front, back) ← cut? text stop
  let (before, _) ← cut? front start
  return before ++ new ++ back

/-- The offset of the first character on which `f` answers, and the answer. -/
def first? (f : Char → Option β) (text : List Char) : Option (Nat × β) :=
  (Cut.first? f text).map fun (front, b, _) => (size front, b)

/-- The offset of the last character on which `f` answers, and the answer. -/
def last? (f : Char → Option β) (text : List Char) : Option (Nat × β) :=
  (Cut.last? f text).map fun (front, b, _) => (size front, b)

/-! ### Cuts at the offsets of characters -/

@[simp] theorem size_nil : size [] = 0 := rfl

@[simp] theorem size_cons (c : Char) (text : List Char) :
    size (c :: text) = c.utf8Size + size text := rfl

@[simp] theorem size_append (text more : List Char) :
    size (text ++ more) = size text + size more := by
  induction text with
  | nil => simp
  | cons c text ih => simp [ih, Nat.add_assoc]

/-- The end of a front is a place to cut. -/
theorem cut?_append (front back : List Char) :
    cut? (front ++ back) (size front) = some (front, back) := by
  induction front with
  | nil => cases back <;> rfl
  | cons c front ih =>
    have hpos := Char.utf8Size_pos c
    obtain ⟨n, hn⟩ : ∃ n, size (c :: front) = n + 1 := ⟨size (c :: front) - 1, by
      rw [size_cons]
      omega⟩
    have hrest : n + 1 - c.utf8Size = size front := by
      rw [← hn, size_cons]
      omega
    have hle : c.utf8Size ≤ n + 1 := by
      rw [← hn, size_cons]
      omega
    rw [hn, List.cons_append, cut?, if_pos hle, hrest, ih]
    rfl

theorem eq_append_of_cut? {text front back : List Char} {offset : Nat}
    (h : cut? text offset = some (front, back)) : text = front ++ back ∧ size front = offset := by
  induction text generalizing offset front with
  | nil =>
    cases offset with
    | zero =>
      cases h
      exact ⟨rfl, rfl⟩
    | succ offset => cases h
  | cons c text ih =>
    cases offset with
    | zero =>
      cases h
      exact ⟨rfl, rfl⟩
    | succ offset =>
      rw [cut?] at h
      split at h
      · next hle =>
        obtain ⟨⟨front', back'⟩, hcut, he⟩ := Option.map_eq_some_iff.mp h
        cases he
        obtain ⟨rfl, hsize⟩ := ih hcut
        refine ⟨rfl, ?_⟩
        rw [size_cons, hsize]
        omega
      · cases h

/-- A cut past the start leaves less of the text. -/
theorem length_lt_of_cut? {text front back : List Char} {offset : Nat}
    (h : cut? text (offset + 1) = some (front, back)) : back.length < text.length := by
  obtain ⟨rfl, hsize⟩ := eq_append_of_cut? h
  cases front with
  | nil => cases hsize
  | cons c front =>
    rw [List.length_append, List.length_cons]
    omega

/-- Behind a character of one byte is a place to cut. -/
theorem cut?_succ (front back : List Char) {c : Char} (hc : c.utf8Size = 1) :
    cut? (front ++ c :: back) (size front + 1) = some (front ++ [c], back) := by
  have h := cut?_append (front ++ [c]) back
  rwa [size_append, size_cons, hc, size_nil, List.append_assoc, List.singleton_append] at h

theorem slice?_append (front part back : List Char) :
    slice? (front ++ part ++ back) (size front) (size (front ++ part)) = some part := by
  simp only [slice?, cut?_append, Option.bind_eq_bind, Option.bind_some, Option.pure_def]

theorem splice?_append (front part back new : List Char) :
    splice? (front ++ part ++ back) (size front) (size (front ++ part)) new =
      some (front ++ new ++ back) := by
  simp only [splice?, cut?_append, Option.bind_eq_bind, Option.bind_some, Option.pure_def]

end Allowlist.Bytes

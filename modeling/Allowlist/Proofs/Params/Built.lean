import Allowlist.Proofs.Params.Overwrite
import Allowlist.Proofs.Values

/-!
# Proofs.Params.Built — all values that a program can hold

Values are written in two ways only: a value is appended behind those of its key, and a filter puts
all values of a key in the place of those that it had.  Both keep the keys in order and leave no key
without a value, so every value list that is built is grouped, and every grouped one can be built
(`built_iff_grouped`).  What is collected from pairs is the multimap of these pairs
(`ofList_multimap`).
-/

namespace Allowlist

/-- An entry of filtered values has the values of an entry of the request. -/
theorem Params.grouped_filter {params : Params} {values filtered : Values}
    (hvalues : values.Grouped) (h : params.filter values = .ok filtered) : filtered.Grouped := by
  refine ⟨sorted_filter h, fun entry hentry => ?_⟩
  obtain ⟨source, hsource, -⟩ := exists_source_of_filter h hentry
  exact hvalues.filled (source, entry.2) hsource

namespace Values

open scoped List

/-- Values that come from no values by appending and filtering, in any order. -/
inductive Built : Values → Prop
  | empty : Built .empty
  | append {values : Values} (key value : String) : Built values → Built (values.append key value)
  | filter {values filtered : Values} (params : Params) :
      Built values → params.filter values = .ok filtered → Built filtered

theorem Built.grouped {values : Values} (h : Built values) : values.Grouped := by
  induction h with
  | empty => exact Grouped.empty
  | append key value _ ih => exact ih.append key value
  | filter params _ hfilter ih => exact Params.grouped_filter ih hfilter

theorem built_ofList (pairs : List (String × String)) : Built (ofList pairs) := by
  induction pairs using List.reverseRecOn with
  | nil => exact .empty
  | append_singleton pairs pair ih =>
    rw [ofList_concat]
    exact ih.append pair.1 pair.2

/-- Appending alone builds all that can be built. -/
theorem built_iff_grouped {values : Values} : Built values ↔ values.Grouped :=
  ⟨Built.grouped, fun h => h.ofList_toList ▸ built_ofList values.toList⟩

/-- Values are the multimap of the pairs that are appended.  A key has the values that stand behind
it, in their order; the keys are those of the pairs, each once and in increasing order; and nothing
else of the pairs is kept, so that neighbours with different keys may change places.  Whatever is
built by appending and filtering has no key without a value, and a first value exactly under the
keys that are present. -/
theorem ofList_multimap (pairs : List (String × String)) :
    ((∀ key, (ofList pairs).getAll key = textsOf pairs key) ∧
      (ofList pairs).keys.Pairwise (· < ·) ∧
      (ofList pairs).keys ~ (pairs.map Prod.fst).dedup ∧
      (ofList pairs).size = (ofList pairs).keys.length ∧
      (∀ more, ofList pairs = ofList more ↔ ∀ key, textsOf pairs key = textsOf more key) ∧
      ∀ front back a b, pairs = front ++ a :: b :: back → a.1 ≠ b.1 →
        ofList pairs = ofList (front ++ b :: a :: back)) ∧
    ∀ values, Built values →
      (∀ entry ∈ values.entries, entry.2 ≠ []) ∧
        ∀ key, values.get? key = (values.getAll key).head? ∧
          ((values.get? key).isSome = true ↔ values.contains key = true) := by
  refine ⟨⟨getAll_ofList pairs, (Grouped.ofList pairs).pairwise_keys, keys_ofList_perm pairs,
    (List.length_map _).symm, fun more => ofList_eq_iff, ?_⟩, fun values hbuilt => ?_⟩
  · rintro front back a b rfl hne
    exact ofList_eq_iff.mpr (textsOf_swap hne front back)
  · have hgrouped := hbuilt.grouped
    exact ⟨hgrouped.filled, fun key => ⟨get?_eq_head? values key, hgrouped.isSome_get?_iff⟩⟩

/-- Values of one key with those of another key between them, and the same values under a root. -/
theorem ofList_multimap_filtered :
    let pairs := [("r[a]", "1"), ("x", "3"), ("r[a]", "2")]
    let kept : Values := ⟨[("a", ["1", "2"])]⟩
    (ofList pairs).getAll "r[a]" = ["1", "2"] ∧
      ofList pairs = ofList [("x", "3"), ("r[a]", "1"), ("r[a]", "2")] ∧
      Params.filter ⟨some "r", none⟩ (ofList pairs) = .ok kept ∧ Built kept ∧
      (kept.append "a" "4").get? "a" = ((kept.append "a" "4").getAll "a").head? ∧
      (((kept.append "a" "4").get? "a").isSome = true ↔
        (kept.append "a" "4").contains "a" = true) := by
  intro pairs kept
  obtain ⟨⟨hall, -, -, -, -, hswap⟩, hbuilt⟩ := ofList_multimap pairs
  have hfilter : Params.filter ⟨some "r", none⟩ (ofList pairs) = .ok kept := by decide +kernel
  have hkept : Built kept := (built_ofList pairs).filter _ hfilter
  obtain ⟨hget, hsome⟩ := (hbuilt _ (hkept.append "a" "4")).2 "a"
  refine ⟨(hall "r[a]").trans (by decide), ?_, hfilter, hkept, hget, hsome⟩
  exact hswap [] [("r[a]", "2")] ("r[a]", "1") ("x", "3") rfl (by decide)

end Values

end Allowlist

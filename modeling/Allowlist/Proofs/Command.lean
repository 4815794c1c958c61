import Allowlist.Command
import Allowlist.Proofs.Params.Unrooted

/-!
# Proofs.Command — what the filter command prints

The command prints one line for each value that is kept.  Without a required root the lines are the
pairs that the rules permit, sorted by their keys and those of one key in the order of the
arguments; given as arguments once more they are printed again (`filter_output_stable`).
-/

namespace Allowlist.Command

open Values

theorem run_filter {files : Files} {arguments rest : List String}
    (h : dropVerbose arguments = "filter" :: rest) :
    run files arguments = finish (filter (arguments.any isVerbose) files rest) := by
  simp [run, h]

/-- A pair asks for nothing to be logged. -/
theorem isVerbose_eq_false {argument : String} (h : '=' ∈ argument.toList) :
    isVerbose argument = false := by
  rw [isVerbose, Bool.or_eq_false_iff, beq_eq_false_iff_ne, beq_eq_false_iff_ne]
  constructor
  · rintro rfl
    revert h
    decide
  · rintro rfl
    revert h
    decide

/-- No argument but a flag is dropped, and no pair is a flag. -/
theorem dropVerbose_filter {arguments pairs lines : List String} {path : String}
    (harguments : dropVerbose arguments = "filter" :: path :: pairs)
    (hlines : ∀ line ∈ lines, '=' ∈ line.toList) :
    dropVerbose ("filter" :: path :: lines) = "filter" :: path :: lines := by
  have hkept : ∀ argument ∈ "filter" :: path :: pairs, (!isVerbose argument) = true := by
    intro argument hmem
    rw [← harguments, dropVerbose, List.mem_filter] at hmem
    exact hmem.2
  refine List.filter_eq_self.mpr (List.forall_mem_cons.mpr ⟨hkept _ (by simp), ?_⟩)
  refine List.forall_mem_cons.mpr ⟨hkept _ (by simp), fun line hline => ?_⟩
  rw [isVerbose_eq_false (hlines line hline), Bool.not_false]

/-- One line for each value, `key=value`, ended by a line break. -/
theorem unlines_lines (values : Values) :
    unlines values.lines =
      String.join (values.toList.map fun pair => pair.1 ++ "=" ++ pair.2 ++ "\n") := by
  rw [unlines, lines, List.map_map]
  rfl

/-- What is printed when nothing is refused. -/
theorem run_filter_of_ok {files : Files} {arguments pairs : List String} {path : String}
    {config : Config} {params : Params} {values kept : Values}
    (harguments : dropVerbose arguments = "filter" :: path :: pairs)
    (hconfig : loadConfig files path = .ok config) (hparams : Params.ofConfig config = .ok params)
    (hvalues : Pairs.ofArguments pairs = .ok values) (hkept : params.filter values = .ok kept) :
    (run files arguments).code = 0 ∧
      (run files arguments).stdout =
        String.join (kept.toList.map fun pair => pair.1 ++ "=" ++ pair.2 ++ "\n") := by
  have hinput : filterInput files path pairs = .ok (params, values) := by
    simp [filterInput, hconfig, hparams, hvalues, Except.mapError, bind, Except.bind, pure,
      Except.pure]
  rw [run_filter harguments, filter, hinput, ← unlines_lines]
  simp [finish, hkept, Except.map, Except.mapError]

/-- Without a required root, filtering prints what can be filtered again.  Each value that is kept
is printed as one line `key=value`: the pairs whose keys are permitted, in the order of the keys and
those of one key in the order of the arguments.  The lines, each read as an argument, are the values
that were kept; these are kept again, and the same lines are printed.  The arguments are read as a
form reads them. -/
theorem filter_output_stable {files : Files} {arguments pairs : List String} {path : String}
    {config : Config} {params : Params}
    (harguments : dropVerbose arguments = "filter" :: path :: pairs)
    (hpairs : ∀ pair ∈ pairs, '=' ∈ pair.toList)
    (hconfig : loadConfig files path = .ok config) (hroot : config.require = none)
    (hparams : Params.ofConfig config = .ok params) :
    Pairs.ofArguments pairs = .ok (Pairs.form pairs) ∧
    ∃ kept, params.filter (Pairs.form pairs) = .ok kept ∧
      ((run files arguments).code = 0 ∧ (run files arguments).stdout =
        String.join (kept.toList.map fun pair => pair.1 ++ "=" ++ pair.2 ++ "\n")) ∧
      kept.toList.Pairwise (fun a b => a.1 ≤ b.1) ∧
      (∀ key, config.Permits key →
        textsOf kept.toList key = textsOf (pairs.filterMap Pairs.split?) key) ∧
      (∀ key, ¬ config.Permits key → key ∉ kept.keys ∧ textsOf kept.toList key = []) ∧
      kept.lines = kept.toList.map (fun pair => pair.1 ++ "=" ++ pair.2) ∧
      Pairs.ofArguments kept.lines = .ok kept ∧ params.filter kept = .ok kept ∧
      (run files ("filter" :: path :: kept.lines)).code = 0 ∧
      (run files ("filter" :: path :: kept.lines)).stdout = (run files arguments).stdout := by
  obtain ⟨hrequire, hallows⟩ := Params.ofConfig_of_no_root hroot hparams
  have hread : Pairs.ofArguments pairs = .ok (Pairs.form pairs) :=
    Pairs.ofArguments_eq_ok_iff.mpr ⟨hpairs, rfl⟩
  obtain ⟨kept, hkept, hagain, hgrouped, hspellable, hall⟩ :=
    Params.exists_filter_form_of_no_root hrequire pairs
  obtain ⟨hcode, hstdout⟩ := run_filter_of_ok harguments hconfig hparams hread hkept
  have hlines : ∀ line ∈ kept.lines, '=' ∈ line.toList := fun _ => equals_mem_of_mem_lines
  have hreread : Pairs.ofArguments kept.lines = .ok kept := ofArguments_lines hspellable hgrouped
  obtain ⟨hcode', hstdout'⟩ :=
    run_filter_of_ok (dropVerbose_filter harguments hlines) hconfig hparams hreread hagain
  refine ⟨hread, kept, hkept, ⟨hcode, hstdout⟩, hgrouped.pairwise_toList, fun key hkey => ?_,
    fun key hkey => ?_, lines_eq kept, hreread, hagain, hcode', hstdout'.trans hstdout.symm⟩
  · rw [hgrouped.textsOf_toList, hall, if_pos ((hallows key).mpr hkey),
      Pairs.filterMap_split? hpairs]
  · rw [← hgrouped.getAll_eq_nil_iff, hgrouped.textsOf_toList, hall,
      if_neg fun h => hkey ((hallows key).mp h), and_self]

/-- Two values of one key with another key between them, one with an equals sign, and a key that the
rules do not permit. -/
theorem filter_output_stable_interleaved :
    let files : Files := fun _ => .ok "permit: ['a:[]']"
    let pairs := ["a[]=x=y", "b=1", "a[0]=", "a[]=x"]
    dropVerbose ("filter" :: "-v" :: "p.yaml" :: pairs) = "filter" :: "p.yaml" :: pairs ∧
      (∀ pair ∈ pairs, '=' ∈ pair.toList) ∧ loadConfig files "p.yaml" = .ok ⟨none, ["a:[]"]⟩ ∧
      (run files ("filter" :: "-v" :: "p.yaml" :: pairs)).stdout = "a[0]=\na[]=x=y\na[]=x\n" ∧
      (run files ["filter", "p.yaml", "a[0]=", "a[]=x=y", "a[]=x"]).stdout =
        "a[0]=\na[]=x=y\na[]=x\n" := by
  intro files pairs
  have harguments : dropVerbose ("filter" :: "-v" :: "p.yaml" :: pairs) =
      "filter" :: "p.yaml" :: pairs := by
    decide +kernel
  have hpairs : ∀ pair ∈ pairs, '=' ∈ pair.toList := by decide +kernel
  have hconfig : loadConfig files "p.yaml" = .ok ⟨none, ["a:[]"]⟩ := by decide +kernel
  have hparams : Params.ofConfig ⟨none, ["a:[]"]⟩ =
      .ok ⟨none, some ⟨.object [("a", .array [])], ["a:[]"]⟩⟩ := by
    decide +kernel
  obtain ⟨-, kept, hkept, ⟨-, hstdout⟩, -, -, -, -, -, -, -, hagain⟩ :=
    filter_output_stable harguments hpairs hconfig rfl hparams
  have hfilter : Params.filter ⟨none, some ⟨.object [("a", .array [])], ["a:[]"]⟩⟩
      (Pairs.form pairs) = .ok ⟨[("a[0]", [""]), ("a[]", ["x=y", "x"])]⟩ := by
    decide +kernel
  obtain rfl : kept = ⟨[("a[0]", [""]), ("a[]", ["x=y", "x"])]⟩ :=
    Except.ok.inj (hkept.symm.trans hfilter)
  have hprinted : (run files ("filter" :: "-v" :: "p.yaml" :: pairs)).stdout =
      "a[0]=\na[]=x=y\na[]=x\n" := by
    rw [hstdout]
    decide +kernel
  exact ⟨harguments, hpairs, hconfig, hprinted, hagain.trans hprinted⟩

end Allowlist.Command

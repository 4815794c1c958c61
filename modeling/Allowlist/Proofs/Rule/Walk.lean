import Allowlist.Proofs.Rule.Conflict
import Allowlist.Proofs.Shape.Algebra

/-!
# Proofs.Rule.Walk — a rule in another order of members

A merge comes to the same shape in every order of the members (`Shape.merge_of_merge`).  So members
that an object declares are the same in every order, or in conflict in every order, and all else
that compiling a rule does looks at no order.  Along the groups, the steps and the run of a rule
this gives one result in all orders, as long as it is not a conflict (`compile_of_order`).
-/

namespace Allowlist

open Outcome (Avoids)

variable {order order' : Shape.MemberOrder}

theorem Shape.addMember_of_order {path : List String} {ms ms' : List (String × Shape)}
    {name : String} {shape : Shape} (hms : (object ms).Sorted) (hshape : shape.Sorted)
    (h : @addMember order path ms name shape = .ok ms') :
    @addMember order' path ms name shape = .ok ms' := by
  have hmerge : @merge order path (.object ms) (.object [(name, shape)]) = .ok (.object ms') := by
    rw [@merge_object_single order, h]
    rfl
  have hmerge' : @merge order' path (.object ms) (.object [(name, shape)]) = .ok (.object ms') :=
    merge_of_merge hms (sorted_object_single hshape) hmerge
  rw [@merge_object_single order', Outcome.map_eq_ok_iff] at hmerge'
  obtain ⟨_, hadd, he⟩ := hmerge'
  cases he
  exact hadd

namespace Rule

open Allowlist.Rule.Symbol

/-- The fault is that two declarations of one name conflict. -/
def Fault.IsConflict (fault : Fault) : Prop := ∃ path, fault = .conflict path

/-- The error is that two declarations of one name conflict, of one rule or of two. -/
def Error.IsConflict (error : Error) : Prop := ∃ path, error.conflictPath? = some path

/-! ### Groups -/

namespace Group

theorem declarePart_of_order {draft : List (String × Shape) × Nat} {part : Option String × Parked}
    (hdraft : (Shape.object draft.1).Sorted) (hpart : part.2.Exact)
    (h : Avoids Fault.IsConflict (@declarePart order draft part)) :
    @declarePart order' draft part = @declarePart order draft part := by
  obtain ⟨name?, parked⟩ := part
  cases name? with
  | none => rfl
  | some name =>
    cases hadd : @Shape.addMember order [] draft.1 name parked.shape with
    | error path =>
      have hconflict : @declarePart order draft (some name, parked) = .error (.conflict path) := by
        simp [declarePart, hadd, bind, Except.bind, Except.mapError]
      exact absurd ⟨path, rfl⟩ (h _ hconflict)
    | ok ms =>
      have hadd' := @Shape.addMember_of_order order order' _ _ _ _ _ hdraft hpart.sorted hadd
      simp [declarePart, hadd, hadd']

theorem sorted_declarePart {draft draft' : List (String × Shape) × Nat}
    {part : Option String × Parked} (hdraft : (Shape.object draft.1).Sorted)
    (hpart : part.2.Exact) (h : @declarePart order draft part = .ok draft') :
    (Shape.object draft'.1).Sorted :=
  @sorted_declare? order _ _ _ hdraft hpart.sorted ((@declarePart_eq_ok_iff order _ _ _).mp h).1

theorem ofParts_of_order {kind : GroupKind} {parts : List (Option String × Parked)}
    (hparts : ∀ part ∈ parts, part.2.Exact)
    (h : Avoids Fault.IsConflict (@ofParts order kind parts)) :
    @ofParts order' kind parts = @ofParts order kind parts := by
  cases kind with
  | array => rfl
  | object =>
    refine h.bind_congr (fun hfold => ?_) fun _ _ _ => rfl
    refine hfold.foldlM_congr (fun draft => (Shape.object draft.1).Sorted) (by simp) ?_ ?_
    · exact fun draft part hpart hdraft => declarePart_of_order hdraft (hparts part hpart)
    · exact fun draft part _ hpart hdraft => sorted_declarePart hdraft (hparts part hpart)

/-- A group is the same in every order, or its members conflict. -/
theorem build_of_order {kind : GroupKind} {body : List Symbol} {slots : Slots}
    {front back : List Nat} (hexact : slots.Exact)
    (hlinear : slots.Linear (front ++ references body ++ back))
    (h : Avoids Fault.IsConflict (@build order kind body slots)) :
    @build order' kind body slots = @build order kind body slots := by
  rcases @build_cases order kind _ _ _ _ hlinear with
    ⟨fault, hbody, -⟩ | ⟨entries, parts, slots', hbody, hread, -, hbuild⟩
  · simp only [build, hbody]
    rfl
  · rw [hbuild] at h ⊢
    rw [@build_eq_ofParts order' _ _ _ _ _ _ hbody hread]
    exact h.map_congr (ofParts_of_order (hexact.readAll hread).1)

end Group

/-! ### Runs -/

namespace Reduction

theorem step_of_order {state : Reduction} (hexact : state.slots.Exact) (hlinear : state.Linear)
    (h : Avoids Fault.IsConflict (@step order state)) :
    @step order' state = @step order state := by
  refine h.bind_congr (fun _ => rfl) fun found hfound hbuild => ?_
  cases found with
  | none => rfl
  | some group =>
    rw [Linear, (innermost?_eq_some_iff.mp hfound).1, references_innermost] at hlinear
    exact hbuild.bind_congr (Group.build_of_order hexact hlinear) fun _ _ _ => rfl

theorem finish_of_order {state : Reduction} (hexact : state.slots.Exact) (hlinear : state.Linear)
    (h : Avoids Fault.IsConflict (@finish order state)) :
    @finish order' state = @finish order state := by
  by_cases href : ∃ index, trim state.text = [.group index]
  · obtain ⟨index, href⟩ := href
    rw [@finish_of_reference order _ _ href, @finish_of_reference order' _ _ href]
  · have hentries : ∀ index, trim state.text ≠ [.group index] := fun index he => href ⟨index, he⟩
    rw [@finish_of_entries order _ hentries] at h ⊢
    rw [@finish_of_entries order' _ hentries]
    exact h.map_congr (Group.build_of_order hexact hlinear.trimmed)

/-- A run makes the same steps in every order, up to a conflict. -/
theorem run_of_order {state : Reduction} (hexact : state.slots.Exact) (hlinear : state.Linear)
    (h : Avoids Fault.IsConflict (@run order state)) : @run order' state = @run order state := by
  induction state using (@Reduction.run.induct order) with
  | case1 state fault hstep =>
    rw [@run_of_error order _ _ hstep] at h ⊢
    have hsame : @step order' state = @step order state :=
      step_of_order hexact hlinear (hstep ▸ Avoids.error_iff.mpr (Avoids.error_iff.mp h))
    exact @run_of_error order' _ _ (hsame.trans hstep)
  | case2 state hstep =>
    rw [@run_of_none order _ hstep] at h ⊢
    have hsame : @step order' state = @step order state :=
      step_of_order hexact hlinear (hstep ▸ .ok none)
    rw [@run_of_none order' _ (hsame.trans hstep)]
    exact finish_of_order hexact hlinear h
  | case3 state next hstep ih =>
    rw [@run_of_next order _ _ hstep] at h ⊢
    have hsame : @step order' state = @step order state :=
      step_of_order hexact hlinear (hstep ▸ .ok (some next))
    rw [@run_of_next order' _ _ (hsame.trans hstep)]
    exact ih (@Next.exact order _ _ hstep hexact) (@Next.linear order _ _ hstep hlinear) h

end Reduction

/-- A rule compiles to one shape in every order, or is refused for one fault in every order, or is
refused for a conflict. -/
theorem compile_of_order {rule : String} (h : Avoids Error.IsConflict (@compile order rule)) :
    @compile order' rule = @compile order rule := by
  unfold compile at h ⊢
  split_ifs at h ⊢
  · rfl
  · rfl
  · rfl
  · have hrun : Avoids Fault.IsConflict (@Reduction.run order (.start rule.toList)) := by
      rintro _ hrun ⟨path, rfl⟩
      exact h (.fault rule (.conflict path)) (by rw [hrun]; rfl) ⟨path, rfl⟩
    rw [Reduction.run_of_order (Reduction.exact_start _) (Reduction.linear_start _) hrun]

end Rule

end Allowlist

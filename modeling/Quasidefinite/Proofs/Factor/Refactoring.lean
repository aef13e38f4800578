import Quasidefinite.Ordering.MinimumDegree
import Quasidefinite.Proofs.Factor.Factorization

/-!
# Changed values and factoring again

A factorization is used through solves, changes of values and refactorizations, in any order. A
change may be refused and a refactorization may stop at a pivot and leave its factors half done.
Nothing of that lasts: what the plan holds is the matrix with the values last accepted
(`Factorization.Of`, kept by every call, `Of.exists_after`), and a refactorization reads the plan
alone. So it comes to what a construction from that matrix in the same order comes to, factors or
error (`Factorization.refactor_eq_new`).
-/

namespace Quasidefinite

variable {α : Type} [Scalar α]

namespace Factorization

/-! ## 1. Calls -/

/-- A call on a factorization. -/
inductive Call (α : Type)
  /-- Solves for the right hand side `b`. -/
  | solve (b : Array α)
  /-- Asks for the values of stored entries to be changed. -/
  | updateValues (indices : Array Nat) (values : Array α)
  /-- Factors the matrix again. -/
  | refactor

/-- The factorization after a call. A solve and a refused change of values leave it as it is. -/
def after (F : Factorization α) : Call α → Checked (Factorization α)
  | .solve b => do
    let _ ← F.solve b
    pure F
  | .updateValues indices values => do
    match ← (F.updateValues indices values).run with
    | .ok G => pure G
    | .error _ => pure F
  | .refactor => do
    let (G, _) ← F.refactor
    pure G

/-- The values of a matrix after a call. A change is accepted if it has as many positions as
    values and every position is that of a stored entry; of two values for one entry the later
    one stays. -/
def written (value : Array α) : Call α → Array α
  | .updateValues indices values =>
    if indices.size = values.size ∧ ∀ i ∈ indices, i < value.size then
      overwrite value (indices.toList.zip values.toList)
    else value
  | _ => value

/-- The values last accepted. -/
def accepted (value : Array α) (calls : List (Call α)) : Array α := calls.foldl written value

/-! ## 2. The order of a factorization -/

omit [Scalar α] in
/-- A change of values does not look at the order. -/
theorem updateValues_withPerm (F : Factorization α) (perm : Array Nat) (indices : Array Nat)
    (values : Array α) : ({ F with perm } : Factorization α).updateValues indices values =
      (fun G => { G with perm }) <$> F.updateValues indices values := by
  unfold updateValues
  simp only [map_eq_pure_bind, bind_assoc, pure_bind]
  rfl

/-- A refactorization does not look at the order. -/
theorem refactor_withPerm (F : Factorization α) (perm : Array Nat) :
    ({ F with perm } : Factorization α).refactor =
      (fun r => ({ r.1 with perm }, r.2)) <$> F.refactor := by
  unfold refactor
  simp only [map_eq_pure_bind, bind_assoc, pure_bind]

omit [Scalar α] in
theorem trimmed_withPerm {F G : Factorization α} {n : Nat} (h : G.perm = (F.trimmed n).perm) :
    ({ G with perm := F.perm } : Factorization α).trimmed n = G := by
  obtain ⟨perm, plan, place, factors⟩ := G
  obtain rfl : perm = F.perm.extract 0 n := h
  rfl

omit [Scalar α] in
/-- A change of values that does not fit is refused. -/
theorem updateValues_refused {F : Factorization α} {indices : Array Nat} {values : Array α}
    (h : ¬(indices.size = values.size ∧ ∀ i ∈ indices, i < F.place.size)) :
    (F.updateValues indices values).run = .ok (.error .incompatibleUpdate) := by
  unfold updateValues
  by_cases hsize : indices.size = values.size
  · have hall : ¬indices.all (· < F.place.size) = true := by
      intro hall
      rw [Array.all_eq_true_iff_forall_mem] at hall
      exact h ⟨hsize, fun i hi => of_decide_eq_true (hall i hi)⟩
    rw [Attempt.run_bind_of_ok _ (Attempt.run_ensure_of hsize)]
    exact Attempt.run_bind_of_error _ (by simp only [Attempt.ensure, if_neg hall]; rfl)
  · exact Attempt.run_bind_of_error _ (by simp only [Attempt.ensure, if_neg hsize]; rfl)

/-! ## 3. What a call keeps -/

namespace Of

variable {A : Sparse α} {opts : FactorOptions α} {F : Factorization α}

/-- Factoring again, whatever the length of the order. -/
theorem exists_refactor_of_trimmed (h : Of A opts (F.trimmed A.cols)) : ∃ factors,
    F.refactor = .ok ({ F with factors }, outcome F.plan) ∧
      Of A opts (({ F with factors } : Factorization α).trimmed A.cols) ∧
      Holds { F with factors } := by
  obtain ⟨factors, hrun, hof, hholds⟩ := h.exists_refactor
  refine ⟨factors, ?_, hof, hholds⟩
  have hperm := refactor_withPerm (F.trimmed A.cols) F.perm
  rw [hrun] at hperm
  exact hperm

/-- Changing values, whatever the length of the order. -/
theorem exists_updateValues_of_trimmed (h : Of A opts (F.trimmed A.cols)) {indices : Array Nat}
    {values : Array α} (hsize : indices.size = values.size)
    (hlt : ∀ i ∈ indices, i < A.rowIndex.size) :
    ∃ G : Factorization α, (F.updateValues indices values).run = .ok (.ok G) ∧ G.perm = F.perm ∧
      Of { A with value := overwrite A.value (indices.toList.zip values.toList) } opts
        (G.trimmed A.cols) := by
  obtain ⟨G, hrun, hperm, -, hof⟩ := h.exists_updateValues hsize hlt
  refine ⟨{ G with perm := F.perm }, ?_, rfl, ?_⟩
  · have hwith := updateValues_withPerm (F.trimmed A.cols) F.perm indices values
    rw [map_eq_pure_bind] at hwith
    show (({ F.trimmed A.cols with perm := F.perm } : Factorization α).updateValues
      indices values).run = _
    rw [hwith, Attempt.run_bind_of_ok _ hrun]
    rfl
  · rwa [trimmed_withPerm hperm]

/-- **Every call leaves a factorization of the matrix with the values last accepted.** -/
theorem exists_after (h : Of A opts (F.trimmed A.cols)) (call : Call α)
    (hcall : ∀ b, call = .solve b → b.size = A.cols) :
    ∃ G, F.after call = .ok G ∧ G.perm = F.perm ∧
      Of { A with value := written A.value call } opts (G.trimmed A.cols) := by
  cases call with
  | solve b =>
    obtain ⟨label, hinverse, -⟩ := h.planOf.exists_labels
    obtain ⟨x, hx, -⟩ := exists_solve_of_trimmed h hinverse (hcall b rfl)
    refine ⟨F, ?_, rfl, h⟩
    unfold after
    dsimp only
    rw [hx, Checked.ok_bind, Checked.pure_eq_ok]
  | updateValues indices values =>
    have hplace : F.place.size = A.rowIndex.size := h.planOf.size_place
    unfold after written
    dsimp only
    by_cases hfits : indices.size = values.size ∧ ∀ i ∈ indices, i < A.value.size
    · rw [if_pos hfits]
      rw [h.planOf.triangle.size_value] at hfits
      obtain ⟨G, hrun, hperm, hof⟩ := h.exists_updateValues_of_trimmed hfits.1 hfits.2
      refine ⟨G, ?_, hperm, hof⟩
      rw [hrun]
      rfl
    · rw [if_neg hfits]
      rw [h.planOf.triangle.size_value, ← hplace] at hfits
      refine ⟨F, ?_, rfl, h⟩
      rw [updateValues_refused hfits]
      rfl
  | refactor =>
    obtain ⟨factors, hrun, hof, -⟩ := h.exists_refactor_of_trimmed
    refine ⟨{ F with factors }, ?_, rfl, hof⟩
    unfold after
    dsimp only
    rw [hrun, Checked.ok_bind, Checked.pure_eq_ok]

/-- Every sequence of calls leaves a factorization of the matrix with the values last accepted. -/
theorem exists_calls (h : Of A opts (F.trimmed A.cols)) (calls : List (Call α))
    (hcalls : ∀ b, .solve b ∈ calls → b.size = A.cols) :
    ∃ G, calls.foldlM after F = .ok G ∧ G.perm = F.perm ∧
      Of { A with value := accepted A.value calls } opts (G.trimmed A.cols) := by
  induction calls generalizing A F with
  | nil => exact ⟨F, rfl, rfl, h⟩
  | cons call calls ih =>
    obtain ⟨G, hG, hGperm, hGof⟩ :=
      h.exists_after call fun b hb => hcalls b (hb ▸ List.mem_cons_self)
    obtain ⟨H, hH, hHperm, hHof⟩ := ih hGof fun b hb => hcalls b (List.mem_cons_of_mem call hb)
    refine ⟨H, ?_, hHperm.trans hGperm, hHof⟩
    rw [List.foldlM_cons, hG, Checked.ok_bind, hH]

/-- **Two factorizations of a matrix in one order are the same** if they hold what their plans
    decide, and otherwise fail with the same error. -/
theorem map_outcome_eq {G : Factorization α} (hF : Of A opts (F.trimmed A.cols))
    (hG : Of A opts (G.trimmed A.cols)) (hperm : F.perm = G.perm) (hFholds : F.Holds)
    (hGholds : G.Holds) :
    (outcome F.plan).map (fun _ => F) = (outcome G.plan).map fun _ => G := by
  have hplans : PlanOf A (F.trimmed A.cols).perm opts G.plan G.place := by
    unfold trimmed
    rw [hperm]
    exact hG.planOf
  obtain ⟨hplan, hplace⟩ : F.plan = G.plan ∧ F.place = G.place := hF.planOf.unique hplans
  unfold outcome
  rw [hplan]
  cases hbad : G.plan.firstBad with
  | some column => rfl
  | none =>
    have hfactors : F.factors = G.factors :=
      (hplan ▸ hFholds (hplan ▸ hbad)).unique (hGholds hbad)
    obtain ⟨⟩ := F
    obtain ⟨⟩ := G
    cases hperm
    cases hplan
    cases hplace
    cases hfactors
    rfl

end Of

/-! ## 4. Factoring again and factoring afresh -/

/-- **Factoring again is factoring the matrix with the values last accepted afresh, in the same
    order**: with the same pivot to stop at, or with the same factors. -/
theorem refactor_eq_new {ordering : FillOrdering} {A : Sparse α} {opts : FactorOptions α}
    {F : Factorization α} (hformat : A.checkFormat.run = .ok (.ok ()))
    (hnew : (new ordering A opts).run = .ok (.ok F)) {calls : List (Call α)}
    (hcalls : ∀ b, .solve b ∈ calls → b.size = A.cols) :
    ∃ G H result, calls.foldlM after F = .ok G ∧ G.refactor = .ok (H, result) ∧
      (new ordering { A with value := accepted A.value calls }
        { opts with perm := some F.perm }).run = .ok (result.map fun _ => H) := by
  have hA := (Sparse.wellFormed_of_checkFormat hformat).toShaped
  obtain ⟨-, hfull, -, horders, hsigns⟩ := orders_of_new hA hnew
  obtain ⟨hstart, -, -⟩ := trimmed_of_new hA hnew
  obtain ⟨G, hrun, hperm, hG⟩ := hstart.exists_calls calls hcalls
  obtain ⟨factors, hrefactor, hH, hholds⟩ := hG.exists_refactor_of_trimmed
  -- the fresh construction, from the matrix with the values last accepted
  have hchoose : (choosePerm ordering { A with value := accepted A.value calls }
      { opts with perm := some F.perm }).run = .ok (.ok F.perm) := rfl
  obtain ⟨F', hperm', hF', hholds', hnew'⟩ := exists_new_of_orders hG.planOf.triangle hfull hchoose
    ⟨horders.le_size, horders.keeps⟩ hsigns
  have hF' : Of { A with value := accepted A.value calls } opts (F'.trimmed A.cols) :=
    ⟨{ hF'.planOf with }, hF'.fits⟩
  refine ⟨G, { G with factors }, outcome G.plan, hrun, hrefactor, ?_⟩
  rw [hnew', hF'.map_outcome_eq hH (hperm'.trans hperm.symm) hholds' hholds]

/-- A matrix of two rows. -/
def twoRows : Sparse Float where
  rows := 2
  cols := 2
  colStart := #[0, 1, 3]
  rowIndex := #[0, 0, 1]
  value := #[2, 1, 3]

/-- Changes that make the matrix singular, a refactorization that stops there, a change that
    writes one entry twice, and one that is refused. -/
def twoRowsCalls : List (Call Float) :=
  [.updateValues #[0, 1] #[0, 0], .refactor, .updateValues #[0, 0] #[5, 4], .solve #[1, 2],
    .updateValues #[3] #[1]]

/-- After all of that, and in an order longer than the matrix, factoring again is factoring
    afresh. -/
theorem refactor_eq_new_twoRows : ∃ F G H result,
    (new .minimumDegree twoRows { FactorOptions.standard with perm := some #[1, 0, 2] }).run =
      .ok (.ok F) ∧
    twoRowsCalls.foldlM after F = .ok G ∧ G.refactor = .ok (H, result) ∧
    (new .minimumDegree ({ twoRows with value := #[4, 0, 3] } : Sparse Float)
      { FactorOptions.standard with perm := some F.perm }).run = .ok (result.map fun _ => H) := by
  have hanswer : (new .minimumDegree twoRows
      { FactorOptions.standard with perm := some #[1, 0, 2] }).answer?.isSome := by
    decide +kernel
  obtain ⟨F, hF⟩ := Option.isSome_iff_exists.1 hanswer
  have hnew := Attempt.run_of_answer? hF
  have hsolves : ∀ b, .solve b ∈ twoRowsCalls → b.size = twoRows.cols := by
    intro b hb
    simp only [twoRowsCalls, List.mem_cons, reduceCtorEq, Call.solve.injEq, List.not_mem_nil,
      or_false, false_or] at hb
    rw [hb]
    rfl
  obtain ⟨G, H, result, hrun, hrefactor, hfresh⟩ :=
    refactor_eq_new (A := twoRows) (by decide +kernel) hnew hsolves
  exact ⟨F, G, H, result, hnew, hrun, hrefactor, hfresh⟩

end Factorization

end Quasidefinite

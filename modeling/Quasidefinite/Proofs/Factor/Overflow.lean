import Quasidefinite.Proofs.Factor.Factorization
import Quasidefinite.Proofs.Overflow

/-!
# Pivots that overflow

A diagonal entry that has overflown is not mended by the sweep: what elimination takes away from
its pivot leaves the pivot overflown, and so does regularization, unless the pivot is expected to
be negative. The column is then the end of the sweep. A factorization that succeeded has met no
such entry (`Factorization.PlanOf.not_overflown`).
-/

namespace Quasidefinite

variable {α : Type} [Scalar α]

namespace Sweep.View

/-- The pivot of a column starts with its diagonal entry. -/
theorem pivot_foldl_scatter_of_mem (M : Sparse α) {k p : Nat} (hrow : M.row p = k) (ps : List Nat)
    (hp : p ∈ ps) (hnodup : (ps.map M.row).Nodup) (v : View α) :
    (ps.foldl (scatter M k) v).pivot k = M.val p := by
  induction ps generalizing v with
  | nil => cases hp
  | cons q ps ih =>
    obtain ⟨hq, hnodup⟩ := List.nodup_cons.1 hnodup
    rw [List.foldl_cons]
    rcases List.mem_cons.1 hp with rfl | hp
    · rw [pivot_foldl_scatter_of_not_mem M ps (hrow ▸ hq), scatter, if_pos hrow]
      exact Function.update_self _ _ _
    · exact ih hp hnodup _

variable [OverflowScalar α]

theorem overflown_foldl_eliminate (k : Nat) (cs : List Nat) {v : View α}
    (h : Overflown (v.pivot k)) : Overflown ((cs.foldl (eliminate k) v).pivot k) := by
  induction cs generalizing v with
  | nil => exact h
  | cons c cs ih =>
    refine ih ?_
    unfold eliminate
    dsimp only
    rw [Function.update_self]
    exact OverflowScalar.overflown_sub _ h

theorem overflown_regularize {plan : FactorPlan α} {k : Nat} (hsign : 0 ≤ plan.signs.getD k 0)
    {v : View α} (h : Overflown (v.pivot k)) : Overflown ((v.regularize plan k).pivot k) := by
  unfold regularize
  split
  · exact h
  · rename_i r _
    dsimp only
    rw [Function.update_self, regularized, if_neg (Int.not_lt.2 hsign),
      if_neg ((OverflowScalar.overflown_mul_one h).2 _)]
    exact h

end Sweep.View

variable [OverflowScalar α]

/-- **A pivot whose diagonal entry has overflown is not usable**, unless it is expected to be
    negative. -/
theorem FactorPlan.usable_of_overflown {plan : FactorPlan α} (hdistinct : plan.matrix.Distinct)
    {k p : Nat} (hk : k < plan.matrix.cols) (hp : p ∈ plan.matrix.positions k)
    (hrow : plan.matrix.row p = k) (hval : Overflown (plan.matrix.val p))
    (hsign : 0 ≤ plan.signs.getD k 0) : plan.usable k = false := by
  have hstart : Overflown (((Sweep.View.after plan k).scattered plan k).pivot k) := by
    unfold Sweep.View.scattered
    rwa [Sweep.View.pivot_foldl_scatter_of_mem plan.matrix hrow _ hp (hdistinct k hk)]
  have hpivot : Overflown (plan.pivotAt k) :=
    Sweep.View.overflown_regularize hsign
      (Sweep.View.overflown_foldl_eliminate k (plan.reach k) hstart)
  simp [usable, hpivot.1]

namespace Factorization.PlanOf

variable {A : Sparse α} {perm : Array Nat} {opts : FactorOptions α} {plan : FactorPlan α}
  {place : Array Nat}

omit [OverflowScalar α] in
theorem nonneg_signs (h : PlanOf A perm opts plan place) {label : Array Nat}
    (hinverse : Permutation.IsInverse perm label) {j : Nat} (hj : j < A.cols)
    (hsign : ∀ signs, opts.signs = some signs → 0 ≤ signs.getD j 0) :
    0 ≤ plan.signs.getD (label.getD j 0) 0 := by
  have hlabel := hinverse.label_lt j (h.size_perm.symm ▸ hj)
  rw [h.getD_signs (h.size_perm ▸ hlabel), FactorOptions.signAt]
  split
  · decide
  · rename_i signs hopts
    rw [hinverse.perm_label j (h.size_perm.symm ▸ hj)]
    exact hsign signs hopts

/-- **A factorization that succeeded has met no diagonal entry that has overflown**, where its
    pivot was not expected to be negative. -/
theorem not_overflown (h : PlanOf A perm opts plan place) (hdistinct : A.Distinct)
    (hgood : plan.firstBad = none) {p : Nat} (hp : p < A.rowIndex.size)
    (hdiag : A.row p = A.colOf p)
    (hsign : ∀ signs, opts.signs = some signs → 0 ≤ signs.getD (A.colOf p) 0) :
    ¬ Overflown (A.val p) := by
  intro hoverflown
  obtain ⟨label, hinverse, hlabels, hrelabel⟩ := h.exists_labels
  have hA := h.triangle
  have hcol := hA.colOf_lt hp
  have hk : label.getD (A.colOf p) 0 < plan.matrix.cols := by
    rw [h.cols_eq]
    exact hlabels.lt _ hcol
  -- the diagonal entry of the relabelled matrix
  have hrow : plan.matrix.row (place.getD p 0) = label.getD (A.colOf p) 0 := by
    rw [hrelabel.row_place hp, Sparse.newRow, hdiag, Nat.min_self]
  have hmem : place.getD p 0 ∈ plan.matrix.positions (label.getD (A.colOf p) 0) := by
    rw [hrelabel.triangle.mem_positions_iff hk, hrelabel.colOf_place hp, Sparse.newCol, hdiag,
      Nat.max_self, hrelabel.size_rowIndex]
    exact ⟨hrelabel.place_lt hp, rfl⟩
  have hunusable := FactorPlan.usable_of_overflown (h.distinct hdistinct) hk hmem hrow
    (by rwa [hrelabel.val_place hp]) (h.nonneg_signs hinverse hcol hsign)
  unfold FactorPlan.firstBad at hgood
  rw [List.find?_eq_none] at hgood
  exact hgood _ (List.mem_range.2 hk) (by rw [hunusable]; rfl)

end Factorization.PlanOf

end Quasidefinite

import Quasidefinite.Error

/-!
# Regularization

The primal regularizer `ρₓ` is added to the diagonal of the quadratic term, the dual regularizer
`ρ_y`, one entry per constraint, stands with negative sign in the lower right block. All of them
are positive and finite, which the type records.
-/

namespace Quasidefinite

/-- The regularizers of a system. -/
structure Regularization (α : Type) [Scalar α] where
  /-- The primal regularizer. -/
  primal : α
  /-- The dual regularizer. -/
  dual : Array α
  /-- The primal regularizer is positive and finite. -/
  primal_ok : Scalar.isPositiveFinite primal = true
  /-- The dual regularizer is positive and finite. -/
  dual_ok : dual.all Scalar.isPositiveFinite = true

namespace Regularization

variable {α : Type} [Scalar α]

/-! ## 1. Validation -/

/-- The first entry of a dual regularizer that is not positive and finite. -/
def firstBad? (dual : Array α) : Option Nat :=
  dual.findIdx? fun r => !Scalar.isPositiveFinite r

/-- Fails with the first entry of a dual regularizer that is not positive and finite. -/
def checkDual (dual : Array α) : Except SystemError Unit :=
  match firstBad? dual with
  | some index => .error (.badDualRegularizer index)
  | none => .ok ()

theorem all_of_firstBad?_eq_none {dual : Array α} (h : firstBad? dual = none) :
    dual.all Scalar.isPositiveFinite = true := by
  rw [Array.all_eq_true_iff_forall_mem]
  simpa [firstBad?] using h

/-! ## 2. Construction and change -/

/-- The regularizers with the given values, if those are positive and finite. -/
def new (primal : α) (dual : Array α) : Except SystemError (Regularization α) :=
  if hp : Scalar.isPositiveFinite primal = true then
    match h : firstBad? dual with
    | some index => .error (.badDualRegularizer index)
    | none => .ok { primal, dual, primal_ok := hp, dual_ok := all_of_firstBad?_eq_none h }
  else .error .badPrimalRegularizer

/-- The number of dual entries. -/
def dualCount (r : Regularization α) : Nat := r.dual.size

/-- The regularizers with another dual regularizer of the same size. -/
def setDual (r : Regularization α) (dual : Array α) : Except SystemError (Regularization α) :=
  if dual.size = r.dual.size then new r.primal dual
  else .error (.incompatibleDimension .dualRegularizer r.dual.size dual.size)

end Regularization

end Quasidefinite

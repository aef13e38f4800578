import Quasidefinite.Sparse.Product

/-!
# The reduced operator

Eliminating the second block of unknowns from the whole system leaves the operator
`ρₓ I + P + Aᵀ diag(w) A`, where `w` holds the reciprocals of the dual regularizer. It is never
formed: it is applied through products with `P` and `A`, and its diagonal is found from theirs.
-/

namespace Quasidefinite

/-- The operator `ρₓ I + P + Aᵀ diag(w) A`. -/
structure ReducedOperator (α : Type) where
  /-- The constraint matrix. -/
  constraint : Sparse α
  /-- The quadratic term. -/
  quadratic : Sparse α
  /-- Whether the quadratic term is stored as its upper triangle. -/
  upperOnly : Bool
  /-- The primal regularizer. -/
  primal : α
  /-- The weights of the constraints. -/
  weights : Array α

namespace ReducedOperator

variable {α : Type} [Scalar α]

/-- Adds `P x` to `y`. -/
def addQuadratic (op : ReducedOperator α) (y x : Array α) : Checked (Array α) :=
  if op.upperOnly then op.quadratic.symv y x 1 1 else op.quadratic.gemv y x 1 1

/-- The operator applied to `x`, written over `y`, and the weighted image of `x` under `A`,
    written over `work`. -/
def apply (op : ReducedOperator α) (y x work : Array α) : Checked (Array α × Array α) := do
  let y := Vec.mapOver (op.primal * ·) y x
  let y ← op.addQuadratic y x
  let work ← op.constraint.gemv work x 1 0
  let work := Vec.hadamard work op.weights
  let y ← op.constraint.gemvT y work 1 1
  pure (y, work)

/-- The diagonal of the operator, written over `diag`. -/
def diagonal (op : ReducedOperator α) (diag : Array α) : Checked (Array α) := do
  let work := Vec.zeros diag.size
  let diag ← op.quadratic.diagonal diag
  let work ← op.constraint.columnWeightedSquares work op.weights
  let diag ← Vec.axpby diag 1 work 1
  pure (diag.map (· + op.primal))

end ReducedOperator

end Quasidefinite

import Quasidefinite.Vec

/-!
# Jacobi preconditioning

The preconditioner divides by the diagonal of the operator. Entries of the diagonal that are not
positive and finite count as one, and a preconditioner that is switched off is the identity.
-/

namespace Quasidefinite

/-- A diagonal preconditioner. -/
structure Jacobi (α : Type) where
  /-- The reciprocals of the diagonal. -/
  inverse : Array α
  /-- Whether the preconditioner is switched on. -/
  enabled : Bool

namespace Jacobi

variable {α : Type} [Scalar α]

/-- The preconditioner for the diagonal of `n` ones. -/
def ones (n : Nat) (enabled : Bool) : Jacobi α where
  inverse := Array.replicate n 1
  enabled := enabled

/-- A preconditioner of size `n`, if arrays can have that many entries. -/
def new (n : Nat) (enabled : Bool) : Checked (Jacobi α) := do
  Checked.fits n
  pure (ones n enabled)

/-- The reciprocal of an entry of the diagonal, or one if the entry is not positive and
    finite. -/
def reciprocal (d : α) : α := if Scalar.isPositiveFinite d then Scalar.recip d else 1

/-- The preconditioner for another diagonal. -/
def update (p : Jacobi α) (diag : Array α) : Jacobi α :=
  if p.enabled then { p with inverse := Vec.mapOver reciprocal p.inverse diag } else p

/-- The preconditioned vector `r`, written over a vector of the same length. -/
def apply (p : Jacobi α) (z r : Array α) : Checked (Array α) := do
  let z ← Vec.copy z r
  pure (if p.enabled then Vec.hadamard z p.inverse else z)

end Jacobi

end Quasidefinite

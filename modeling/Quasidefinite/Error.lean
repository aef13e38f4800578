import Quasidefinite.Factor.Basic
import Quasidefinite.Settings.Basic

/-!
# Errors of the solvers

Why a solver could not be built, or an update of it was refused or failed.
-/

namespace Quasidefinite

/-- The arguments whose size has to fit the constraint matrix. -/
inductive Argument
  | quadraticRows
  | quadraticCols
  | dualRegularizer
  deriving DecidableEq, Repr

/-- The name of an argument in messages. -/
def Argument.name : Argument → String
  | .quadraticRows => "P rows"
  | .quadraticCols => "P columns"
  | .dualRegularizer => "rho_y"

/-- Why a solver could not be built or updated. -/
inductive SystemError
  /-- An argument has the wrong size. -/
  | incompatibleDimension (what : Argument) (expected found : Nat)
  /-- The primal regularizer is not positive and finite. -/
  | badPrimalRegularizer
  /-- An entry of the dual regularizer is not positive and finite. -/
  | badDualRegularizer (index : Nat)
  /-- A matrix is not well formed. -/
  | sparseFormat (e : FormatError)
  /-- The matrix could not be factored. -/
  | factorization (e : FactorError)
  /-- The factored matrix is not quasidefinite. -/
  | inertia (expected found : Nat)
  /-- The matrices are not those the solver was built from. -/
  | matrixMismatch
  /-- The settings are refused. -/
  | settings (e : SettingsError)
  deriving DecidableEq, Repr

/-- The text shown for an error. -/
def SystemError.message : SystemError → String
  | .incompatibleDimension what expected found =>
    "Incompatible dimension for " ++ what.name ++ ": expected " ++ toString expected ++
      ", found " ++ toString found
  | .badPrimalRegularizer => "Primal regularizer must be positive and finite"
  | .badDualRegularizer index =>
    "Dual regularizer entry " ++ toString index ++ " must be positive and finite"
  | .sparseFormat e => "Bad matrix format: " ++ e.message
  | .factorization e => "KKT factorization failed: " ++ e.message
  | .inertia expected found =>
    "KKT matrix has " ++ toString found ++ " positive pivots, expected " ++ toString expected
  | .matrixMismatch => "Matrix data does not match the data used to build the workspace"
  | .settings e => "Bad settings: " ++ e.message

end Quasidefinite

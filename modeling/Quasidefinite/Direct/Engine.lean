import Quasidefinite.Factor.Basic
import Quasidefinite.Settings.Basic

/-!
# Factorization engines by name

The settings name the engine that factors the matrix of the direct method. This module finds the
engine and runs it with the options that the settings stand for.
-/

namespace Quasidefinite

namespace Engine

variable {α : Type} [Scalar α]

/-- The engine that the settings name. -/
def ofSettings (s : Settings α) : Except SettingsError Engine :=
  match ofName? s.engine with
  | some engine => .ok engine
  | none => .error (.badValue .engine)

/-- The options that the settings stand for, given the expected signs of the pivots. -/
def options (signs : Array Int) (s : Settings α) : FactorOptions α where
  denseScale := s.denseScale
  perm := none
  signs := some signs
  regularize := s.regularize
  threshold := s.regularizeThreshold
  shift := s.regularizeShift

/-- Factors the symmetric matrix whose upper triangle is `K`. -/
def factor (ordering : FillOrdering) (K : Sparse α) (signs : Array Int) (s : Settings α) :
    Engine → Attempt FactorError (Factorization α)
  | .rowByRow => Factorization.new ordering K (options signs s)

end Engine

/-- The solution of the factored system, written over a vector of the same length. -/
def Factorization.solveInto {α : Type} [Scalar α] (F : Factorization α) (x b : Array α) :
    Checked (Array α) := do
  F.solve (← Vec.copy x b)

end Quasidefinite

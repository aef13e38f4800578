import Quasidefinite.Direct.System
import Quasidefinite.Indirect.System

/-!
# Workspaces

A `Workspace` solves systems

    [ ρₓ I + P   Aᵀ         ] [x]   [b_x]
    [ A          -diag(ρ_y) ] [y] = [b_y]

again and again for one pair of matrices, by the method that the settings ask for. It is the part
of the library that faces its users: it checks the data when it is built (`Workspace.new`) and the
arguments of every call (`Workspace.solve`, `Workspace.update`) before the method sees them.
-/

namespace Quasidefinite

/-- A system together with the method it is solved by. -/
inductive Workspace (α : Type)
  /-- A system solved by the direct method. -/
  | direct (s : DirectSystem α)
  /-- A system solved by the indirect method. -/
  | indirect (s : IndirectSystem α)

namespace Workspace

variable {α : Type}

/-! ## 1. Views -/

/-- The method of a workspace. -/
def method : Workspace α → Method
  | .direct _ => .direct
  | .indirect _ => .indirect

/-- The counters of a workspace. -/
def info : Workspace α → Diagnostics α
  | .direct s => s.info
  | .indirect s => s.info

/-- The fingerprint of the data a workspace was built from. -/
def fingerprint : Workspace α → Fingerprint
  | .direct s => s.fingerprint
  | .indirect s => s.fingerprint

/-- One line about the work done. -/
def summary [BinaryFormat α] (w : Workspace α) : String := w.info.summary w.method

/-- The name of the method of a workspace, if there is a workspace. -/
def methodName? (w : Option (Workspace α)) : Option String := w.map fun w => w.method.name

variable [Scalar α]

/-! ## 2. The methods -/

/-- Builds a system for the method that the settings ask for, from data that has been checked. -/
def buildChecked (ordering : FillOrdering) (A P : Sparse α) (reg : Regularization α)
    (settings : Settings α) : Attempt SystemError (Workspace α) :=
  match settings.method with
  | .direct => do return .direct (← DirectSystem.new ordering A P reg settings)
  | .indirect => do return .indirect (← IndirectSystem.new A P reg settings)

/-- Builds a system in the same way from any data, if there is room for it. -/
def build (ordering : FillOrdering) (A P : Sparse α) (reg : Regularization α)
    (settings : Settings α) : Attempt SystemError (Workspace α) := do
  Checked.fits (A.cols + A.rows)
  buildChecked ordering A P reg settings

/-- Solves by the method of the workspace, with arguments that have been checked. Answers the
    vector to hand back. -/
def solveChecked (w : Workspace α) (A P : Sparse α) (b : Array α) (warm : Option (Array α))
    (tol : α) : Checked (Workspace α × Array α × Status) :=
  match w with
  | .direct s => do
    let (s, b, status) ← s.solve b
    pure (.direct s, b, status)
  | .indirect s => do
    let (s, b, status) ← s.solve A P b warm tol
    pure (.indirect s, b, status)

/-- Replaces the dual regularizer by one that has been checked. -/
def updateChecked (w : Workspace α) (A P : Sparse α) (dual : Array α) :
    Checked (Workspace α × Except SystemError Unit) :=
  match w with
  | .direct s => do
    let (s, result) ← s.update A P dual
    pure (.direct s, result)
  | .indirect s => do
    let (s, result) ← s.update A P dual
    pure (.indirect s, result)

/-! ## 3. Construction -/

/-- Fails unless an argument has the expected size. -/
def checkDimension (what : Argument) (expected found : Nat) : Except SystemError Unit :=
  if expected = found then .ok () else .error (.incompatibleDimension what expected found)

/-- Fails unless both matrices are well formed and the quadratic term is stored as its upper
    triangle or is symmetric. -/
def checkMatrices (A P : Sparse α) : Attempt SystemError Unit := do
  A.checkFormat.mapError .sparseFormat
  P.checkFormat.mapError .sparseFormat
  unless (← P.isUpper) do
    unless (← P.isSymmetric) do
      throw (.sparseFormat .notSymmetric)

/-- Checks the data and builds a workspace for it. -/
def new (ordering : FillOrdering) (A P : Sparse α) (reg : Regularization α)
    (settings : Settings α) : Attempt SystemError (Workspace α) := do
  Attempt.ofExcept .settings settings.validate
  Attempt.ofExcept id (checkDimension .quadraticRows A.cols P.rows)
  Attempt.ofExcept id (checkDimension .quadraticCols A.cols P.cols)
  Attempt.ofExcept id (checkDimension .dualRegularizer A.rows reg.dualCount)
  if settings.checkInputs then checkMatrices A P
  buildChecked ordering A P reg settings

/-! ## 4. Calls -/

/-- Holds if the vectors and the tolerance of a solve are valid. -/
def validSolve (w : Workspace α) (b : Array α) (warm : Option (Array α)) (tol : α) : Bool :=
  b.size == w.fingerprint.size && warm.all (·.size == w.fingerprint.size) &&
    Scalar.isPositiveFinite tol

/-- Solves the system with right hand side `b`, starting from `warm` if the method is iterative.
    Answers the vector to hand back: the solution or the best iterate, or else `b` as it was. -/
def solve (w : Workspace α) (A P : Sparse α) (b : Array α) (warm : Option (Array α)) (tol : α) :
    Checked (Workspace α × Array α × Status) := do
  if (← w.fingerprint.admits A P) && w.validSolve b warm tol then w.solveChecked A P b warm tol
  else pure (w, b, .invalidInput)

/-- Fails unless a dual regularizer is valid. -/
def checkUpdate (w : Workspace α) (dual : Array α) : Except SystemError Unit := do
  checkDimension .dualRegularizer w.fingerprint.rows dual.size
  Regularization.checkDual dual

/-- Replaces the dual regularizer, and tells whether that succeeded. -/
def update (w : Workspace α) (A P : Sparse α) (dual : Array α) :
    Checked (Workspace α × Except SystemError Unit) := do
  if (← w.fingerprint.admits A P) then
    match w.checkUpdate dual with
    | .error e => pure (w, .error e)
    | .ok () => w.updateChecked A P dual
  else pure (w, .error .matrixMismatch)

end Workspace

end Quasidefinite

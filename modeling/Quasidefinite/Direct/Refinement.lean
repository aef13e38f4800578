import Quasidefinite.Direct.Engine

/-!
# Iterative refinement

A solution found from the factors is improved by solving for its residual and adding the result,
as long as every step reduces the residual by the factor that the settings ask for. A step that
falls short of it is the last; it is kept if it reduced the residual at all.
-/

namespace Quasidefinite

namespace Refinement

variable {α : Type} [Scalar α]

/-! ## 1. Residuals -/

/-- The residual `b - K x`, written over a vector of the same length, and its largest entry. -/
def residual (K : Sparse α) (b : Array α) (e x : Array α) : Checked (Array α × α) := do
  let e ← K.symv (← Vec.copy e b) x (-1) 1
  pure (e, Vec.normInf e)

/-! ## 2. Steps -/

/-- A solution being refined. -/
structure State (α : Type) where
  /-- The solution. -/
  x : Array α
  /-- The residual of the solution tried last. -/
  residual : Array α
  /-- The largest entry of the residual of the solution. -/
  norm : α
  /-- The number of steps taken. -/
  steps : Nat

/-- What a step of the refinement leads to. -/
inductive Progress (α : Type)
  /-- Refinement goes on. -/
  | running (s : State α)
  /-- Refinement is at its end. -/
  | done (s : State α)

/-- Holds if a residual is small enough, or too bad to go on. -/
def finished (settings : Settings α) (normb norm : α) : Bool :=
  !Scalar.isFinite norm || decide (norm ≤ settings.refineAbsTol + settings.refineRelTol * normb)

/-- One step of the refinement. -/
def step (settings : Settings α) (K : Sparse α) (F : Factorization α) (b : Array α) (normb : α)
    (s : State α) : Checked (Progress α) := do
  if finished settings normb s.norm then pure (.done s)
  else
    let dx ← F.solveInto s.x s.residual
    let candidate ← Vec.axpby dx 1 s.x 1
    let (e, norm) ← residual K b s.residual candidate
    let steps := s.steps + 1
    let ratio := s.norm / norm
    if ratio < settings.refineStopRatio then
      if 1 < ratio then pure (.done { x := candidate, residual := e, norm, steps })
      else pure (.done { s with residual := e, steps })
    else pure (.running { x := candidate, residual := e, norm, steps })

/-- Takes steps until refinement is at its end, or the given number of steps is reached. -/
def run (settings : Settings α) (K : Sparse α) (F : Factorization α) (b : Array α) (normb : α) :
    Nat → State α → Checked (State α)
  | 0, s => .ok s
  | count + 1, s => do
    match ← step settings K F b normb s with
    | .done s => pure s
    | .running s => run settings K F b normb count s

end Refinement

/-- Refines the solution `x` of `K x = b`; the vector `e` is overwritten by a residual. -/
def Factorization.refine {α : Type} [Scalar α] (F : Factorization α) (settings : Settings α)
    (K : Sparse α) (b e x : Array α) : Checked (Refinement.State α) := do
  let (e, norm) ← Refinement.residual K b e x
  Refinement.run settings K F b (Vec.normInf b) settings.refineMaxIter.toNat
    { x, residual := e, norm, steps := 0 }

end Quasidefinite

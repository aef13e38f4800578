import Quasidefinite.Vec

/-!
# Preconditioned conjugate gradients

The iteration solves `M x = b` for a positive definite operator `M`, given as a program that
writes `M v` over a buffer, and a preconditioner given in the same way:

    r = b - M x,  z = P⁻¹ r,  p = z
    α = rᵀz / pᵀMp,  x += α p,  r -= α Mp
    z = P⁻¹ r,  β = rᵀz / (the former rᵀz),  p = z + β p

The residual `r` carried along drifts from the true one in the course of a long run. Before the
run ends with success the true residual is therefore computed, and the iteration starts again from
it if it does not confirm the end. A direction along which the operator is not positive breaks the
run off. A run that ends without success hands back the iterate with the smallest residual.
-/

namespace Quasidefinite

namespace ConjugateGradient

/-! ## 1. Types -/

/-- Vectors that a run overwrites, kept from one run to the next. -/
structure Scratch (α : Type) where
  /-- The residual. -/
  r : Array α
  /-- The preconditioned residual. -/
  z : Array α
  /-- The direction of search. -/
  p : Array α
  /-- The image of the last vector that the operator was applied to. -/
  image : Array α
  /-- The best iterate. -/
  best : Array α

/-- Scratch space for vectors of length `n`. -/
def Scratch.new {α : Type} [Scalar α] (n : Nat) : Scratch α where
  r := Vec.zeros n
  z := Vec.zeros n
  p := Vec.zeros n
  image := Vec.zeros n
  best := Vec.zeros n

/-- A problem, and when to stop. -/
structure Problem (α : Type) where
  /-- Writes the operator applied to the second vector over the first. -/
  op : Array α → Array α → Checked (Array α)
  /-- Writes the preconditioned second vector over the first. -/
  precond : Array α → Array α → Checked (Array α)
  /-- The right hand side. -/
  rhs : Array α
  /-- The norm of the residual at which a run ends. -/
  threshold : α

/-- The outcome of a run. -/
structure Result (α : Type) where
  /-- The number of iterations, kept in 32 bits. -/
  iterations : Nat
  /-- The norm of the residual of the iterate handed back. -/
  residual : α
  /-- Whether the residual is below the threshold. -/
  converged : Bool

/-- A run under way. -/
structure Run (α : Type) where
  /-- The iterate. -/
  x : Array α
  /-- The scratch space. -/
  work : Scratch α
  /-- The inner product of the residual and the preconditioned residual. -/
  rz : α
  /-- The smallest norm of a residual so far, which belongs to the best iterate. -/
  bestNorm : α

/-- What an iteration leads to. -/
inductive Progress (α : Type)
  /-- The run goes on. -/
  | running (s : Run α)
  /-- The operator is not positive along the direction of search. -/
  | brokenDown (s : Run α)
  /-- The true residual is below the threshold. -/
  | converged (s : Run α)

variable {α : Type} [Scalar α]

/-! ## 2. Pieces of an iteration -/

/-- The true residual of `x`, left in the scratch space, and its norm. -/
def trueResidual (q : Problem α) (x : Array α) (w : Scratch α) : Checked (Scratch α × α) := do
  let image ← q.op w.image x
  let r ← Vec.waxpby w.r 1 q.rhs (-1) image
  pure ({ w with r, image }, Vec.norm r)

/-- Starts the search in the direction of the preconditioned residual. -/
def restart (q : Problem α) (w : Scratch α) : Checked (Scratch α × α) := do
  let z ← q.precond w.z w.r
  let p ← Vec.copy w.p z
  let rz ← Vec.dot w.r z
  pure ({ w with z, p }, rz)

/-- Keeps the iterate if the norm of its residual is the smallest so far. -/
def keepBest (s : Run α) (norm : α) : Checked (Run α) := do
  if norm < s.bestNorm then
    let best ← Vec.copy s.work.best s.x
    pure { s with bestNorm := norm, work := { s.work with best } }
  else pure s

/-- Turns the direction of search, from the preconditioned residual. -/
def turn (q : Problem α) (s : Run α) : Checked (Run α) := do
  let z ← q.precond s.work.z s.work.r
  let rz ← Vec.dot s.work.r z
  let beta := rz / s.rz
  let p ← Vec.axpby s.work.p 1 z beta
  pure { s with rz, work := { s.work with z, p } }

/-- Compares the true residual with the threshold, once the carried residual is below it: either
    the run ends, or it starts again from the true residual. -/
def confirm (q : Problem α) (s : Run α) : Checked (Progress α) := do
  let (work, norm) ← trueResidual q s.x s.work
  let s := { s with work }
  if norm ≤ q.threshold then pure (.converged { s with bestNorm := norm })
  else
    let (work, rz) ← restart q s.work
    return .running (← keepBest { s with work, rz } norm)

/-- Moves the iterate by `alpha` along the direction of search, and the residual with it. -/
def advance (s : Run α) (alpha : α) : Checked (Run α) := do
  let x ← Vec.axpby s.x alpha s.work.p 1
  let r ← Vec.axpby s.work.r (-alpha) s.work.image 1
  pure { s with x, work := { s.work with r } }

/-- One iteration. -/
def step (q : Problem α) (s : Run α) : Checked (Progress α) := do
  let image ← q.op s.work.image s.work.p
  let s := { s with work := { s.work with image } }
  let curvature ← Vec.dot s.work.p image
  if Scalar.isPositiveFinite curvature then
    let s ← advance s (s.rz / curvature)
    let norm := Vec.norm s.work.r
    if norm ≤ q.threshold then confirm q s
    else
      let s ← keepBest s norm
      return .running (← turn q s)
  else pure (.brokenDown s)

/-! ## 3. Runs -/

/-- Iterates at most `count` times, `done` iterations having been made. Answers the number of
    iterations, the state at the end, and whether the run has converged. -/
def iterate (q : Problem α) : (count done : Nat) → Run α → Checked (Nat × Run α × Bool)
  | 0, done, s => .ok (done, s, false)
  | count + 1, done, s => do
    match ← step q s with
    | .running s => iterate q count (done + 1) s
    | .brokenDown s => pure (done + 1, s, false)
    | .converged s => pure (done + 1, s, true)

/-- Runs the iteration from `x`, at most `maxIter` times. -/
def run (q : Problem α) (maxIter : Nat) (x : Array α) (w : Scratch α) :
    Checked (Result α × Array α × Scratch α) := do
  let (w, norm) ← trueResidual q x w
  if norm ≤ q.threshold then
    pure ({ iterations := 0, residual := norm, converged := true }, x, w)
  else
    let best ← Vec.copy w.best x
    let (w, rz) ← restart q { w with best }
    let (iterations, s, converged) ← iterate q maxIter 0 { x, work := w, rz, bestNorm := norm }
    let x ← if converged then pure s.x else Vec.copy s.x s.work.best
    let iterations := iterations % UInt32.size
    pure ({ iterations, residual := s.bestNorm, converged }, x, s.work)

end ConjugateGradient

end Quasidefinite

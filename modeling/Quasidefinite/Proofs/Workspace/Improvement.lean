import Quasidefinite.Proofs.Direct.Improvement
import Quasidefinite.Proofs.Workspace.Finite

/-!
# Refined solutions

Refinement starts from the solution that the factors give, and both this solution and the one it
ends with are measured. If the residual at the end is a number, refinement has not lost a finite
solution, and it has not made the residual larger if the settings ask of every step that it does
not (`Session.refinement_no_worse`).

Settings that pass validation may ask for less, and then steps that make the residual larger are
accepted. A residual that is not a number ends refinement only after the solution it belongs to has
been accepted, so that a finite solution may be lost with any settings
(`Session.refinement_worsens`).
-/

namespace Quasidefinite

variable {α : Type} [Scalar α]

/-! ## 1. Sessions of the direct method -/

namespace Session

open Refinement

/-- **Refinement does not make a solution worse, unless it ends with a residual that is not a
    number.** In every direct system that construction and some calls lead to, with whatever
    matrices, the factors give a solution and refinement ends with one; what refinement reports is
    the residual of the latter, computed by the same product as that of the former. If it is a
    number, a finite solution remains finite; and if moreover the ratio that every step has to
    achieve is not below one, the residual does not grow. -/
theorem refinement_no_worse [QuotientScalar α] [AbsorbingScalar α] {ordering : FillOrdering}
    {A P : Sparse α} {reg : Regularization α} {settings : Settings α}
    (hA : A.checkFormat.run = .ok (.ok ())) (hP : P.checkFormat.run = .ok (.ok ()))
    (hmethod : settings.method = .direct) {s : DirectSystem α} {dual : Array α}
    (hs : Reachable ordering A P reg settings ⟨.direct s, dual⟩) {b : Array α}
    (hb : b.size = A.rows + A.cols) :
    ∃ x norm r, s.factorization.solve b = .ok x ∧ s.solveRefined b = .ok r ∧
      residualNorm s.kkt.matrix b x = .ok norm ∧
      residualNorm s.kkt.matrix b r.x = .ok r.norm ∧
      (Scalar.isNaN r.norm = false →
        (Vec.isFinite x = true → Vec.isFinite r.x = true) ∧
        (1 ≤ settings.refineStopRatio → r.norm ≤ norm)) := by
  obtain ⟨U, hdirect⟩ := hs.exists_ofDirect (Sparse.wellFormed_of_checkFormat hA)
    (Sparse.wellFormed_of_checkFormat hP) hmethod
  obtain ⟨h, -⟩ := hdirect
  have hstop := (Settings.validate_eq_ok.1 hs.admissible.settings_ok).2.2.2
  obtain ⟨first, last, hfirst, hlast, hmeasured, hmeasured', hworse⟩ := h.exists_noWorse hstop hb
  exact ⟨first.x, first.norm, last, hfirst, hlast, hmeasured, hmeasured',
    fun hnan => ⟨(hworse hnan).isFinite, (hworse hnan).le⟩⟩

end Session

/-! ## 2. A small problem in double precision -/

/-- The system of a workspace for the direct method. -/
def Workspace.system? : Workspace α → Option (DirectSystem α)
  | .direct s => some s
  | .indirect _ => none

omit [Scalar α] in
theorem Workspace.run_of_system? {x : Attempt SystemError (Workspace α)} {s : DirectSystem α}
    (h : x.answer?.bind system? = some s) : x.run = .ok (.ok (.direct s)) := by
  obtain ⟨w, hw, hs⟩ := Option.bind_eq_some_iff.1 h
  cases w with
  | direct t =>
    cases hs
    exact Attempt.run_of_answer? hw
  | indirect t => cases hs

/-- What refinement does to a solution: whether its residual becomes larger, and whether it is
    finite before and after. -/
def DirectSystem.effect (s : DirectSystem α) (b : Array α) : Checked (Bool × Bool × Bool) := do
  let x ← s.factorization.solve b
  let r ← s.solveRefined b
  let norm ← Refinement.residualNorm s.kkt.matrix b x
  pure (decide (norm < r.norm), Vec.isFinite x, Vec.isFinite r.x)

namespace Sample

/-- Settings that replace the primal pivot `1` by the given value. -/
def replacing (shift : Float) : Settings Float :=
  { Settings.standard with regularize := true, regularizeThreshold := 2, regularizeShift := shift }

/-- A matrix that stores a zero. -/
def storedZero : Sparse Float where
  rows := 1
  cols := 1
  colStart := #[0, 1]
  rowIndex := #[0]
  value := #[0]

/-- The direct system for the unit matrix, with a pivot that is too large. -/
def shiftedSystem : DirectSystem Float :=
  ((Workspace.new .minimumDegree machineZero machineZero unitRegularization
    (replacing 1.5)).answer?.bind Workspace.system?).get (by decide +kernel)

theorem shifted_new_eq : (Workspace.new .minimumDegree machineZero machineZero unitRegularization
    (replacing 1.5)).run = .ok (.ok (.direct shiftedSystem)) :=
  Workspace.run_of_system? (Option.some_get _).symm

end Sample

namespace Session

open Refinement

/-- With a pivot that is too large the residual for `[1, 2]` does not become larger. -/
theorem refinement_no_worse_sample : ∃ x norm r,
    Sample.shiftedSystem.factorization.solve #[1, 2] = .ok x ∧
    Sample.shiftedSystem.solveRefined #[1, 2] = .ok r ∧
    residualNorm Sample.shiftedSystem.kkt.matrix #[1, 2] x = .ok norm ∧
    residualNorm Sample.shiftedSystem.kkt.matrix #[1, 2] r.x = .ok r.norm ∧
    (Vec.isFinite x = true → Vec.isFinite r.x = true) ∧ r.norm ≤ norm := by
  obtain ⟨x, norm, r, hx, hr, hnorm, hmeasured, hworse⟩ := refinement_no_worse
    (by decide +kernel) (by decide +kernel) rfl (.new _ Sample.shifted_new_eq)
    (show (#[1, 2] : Array Float).size = 1 + 1 from rfl)
  have hnumber : (Sample.shiftedSystem.solveRefined #[1, 2]).map (fun r => Scalar.isNaN r.norm) =
      .ok false := by decide +kernel
  obtain ⟨r', hr', hnan⟩ := Checked.exists_of_map hnumber
  obtain rfl : r' = r := Except.ok.inj (hr'.symm.trans hr)
  obtain ⟨hfinite, hle⟩ := hworse hnan
  exact ⟨x, norm, r', hx, hr, hnorm, hmeasured, hfinite, hle (by decide +kernel)⟩

/-- **Refinement can make a residual larger, and it can lose a finite solution.** With a pivot that
    is too small every step overshoots. If the settings do not ask that residuals become smaller,
    every step is accepted. If the pivot is so small that a step overflows, the residual is not a
    number, and the step is accepted whatever the settings ask for. -/
theorem refinement_worsens :
    ((Workspace.new .minimumDegree Sample.machineZero Sample.machineZero Sample.unitRegularization
      { Sample.replacing 0.25 with refineStopRatio := 0.25 }).answer?.bind Workspace.system?).map
        (fun s => s.effect #[1, 0]) = some (.ok (true, true, true)) ∧
    ((Workspace.new .minimumDegree Sample.storedZero Sample.machineZero Sample.unitRegularization
      (Sample.replacing 1e-300)).answer?.bind Workspace.system?).map
        (fun s => s.effect #[1e-10, 0]) = some (.ok (false, true, false)) := by
  constructor
  · decide +kernel
  · decide +kernel

end Session

end Quasidefinite

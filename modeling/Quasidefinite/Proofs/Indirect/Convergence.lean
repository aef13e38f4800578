import Quasidefinite.Proofs.Indirect.Iteration

/-!
# When a run converges

Conjugate gradients compare norms of residuals with a threshold, in whatever arithmetic. Until the
run converges no norm it keeps has passed the comparison (`Iteration.stands`), and it converges on a
residual that was computed afresh (`converged_iff`).
-/

namespace Quasidefinite

namespace ConjugateGradient

variable {α : Type} [Scalar α] {q : Problem α} {s t : Run α}

/-- The norm is that of the true residual of `x`, which was computed last of all. -/
def Measured (q : Problem α) (x : Array α) (work : Scratch α) (norm : α) : Prop :=
  ∃ before, trueResidual q x before = .ok (work, norm)

/-- Where an iteration stands: the smallest norm so far has not passed the comparison with the
    threshold, or the run has converged on a measured norm that passes it. -/
def Stands (q : Problem α) : Progress α → Prop
  | .running s => ¬ s.bestNorm ≤ q.threshold
  | .brokenDown s => ¬ s.bestNorm ≤ q.threshold
  | .converged s => s.bestNorm ≤ q.threshold ∧ Measured q s.x s.work s.bestNorm

theorem Moved.bestNorm_eq (h : Moved q s t) : t.bestNorm = s.bestNorm := by
  obtain ⟨image, curvature, -, -, -, hadvance⟩ := h
  obtain ⟨x, r, -, -, rfl⟩ := advance_eq_ok.1 hadvance
  rfl

/-- A norm that does not pass the comparison may be kept. -/
theorem not_le_of_keepBest {norm c : α} (hs : ¬ s.bestNorm ≤ c) (hnorm : ¬ norm ≤ c)
    (h : keepBest s norm = .ok t) : ¬ t.bestNorm ≤ c := by
  rcases keepBest_eq_ok.1 h with ⟨-, -, rfl⟩ | ⟨-, rfl⟩
  · exact hnorm
  · exact hs

/-- **No norm passes the comparison before the run converges**, and then a measured one does. -/
theorem Iteration.stands {branch : Branch} {p : Progress α} (h : Iteration q s branch p)
    (hs : ¬ s.bestNorm ≤ q.threshold) : Stands q p := by
  cases h with
  | brokenDown image curvature himage hcurvature hpositive => exact hs
  | converged t work norm hmoved hcarried htrue hnorm => exact ⟨hnorm, t.work, htrue⟩
  | restarted t u work work' norm rz hmoved hcarried htrue hnorm hrestart hkeep =>
    exact not_le_of_keepBest (s := { t with work := work', rz }) (hmoved.bestNorm_eq ▸ hs) hnorm
      hkeep
  | turned t u v hmoved hcarried hkeep hturn =>
    have hu := not_le_of_keepBest (hmoved.bestNorm_eq ▸ hs) hcarried hkeep
    obtain ⟨z, rz, p, -, -, -, rfl⟩ := turn_eq_ok.1 hturn
    exact hu

theorem stands_of_iterate {count done k : Nat} {converged : Bool}
    (hs : ¬ s.bestNorm ≤ q.threshold) (h : iterate q count done s = .ok (k, t, converged)) :
    Stands q (if converged then .converged t else .brokenDown t) := by
  induction count generalizing done s with
  | zero =>
    cases h
    exact hs
  | succ count ih =>
    rw [iterate] at h
    obtain ⟨p, hp, h⟩ := Checked.bind_eq_ok.1 h
    obtain ⟨branch, hbranch⟩ := step_eq_ok_iff.1 hp
    have hstands := hbranch.stands hs
    cases p with
    | running u => exact ih hstands h
    | brokenDown u =>
      cases h
      exact hstands
    | converged u =>
      cases h
      exact hstands

/-- **A run converges exactly if the norm that it reports passes the comparison**, and that norm is
    then the one of the vector handed back. -/
theorem converged_iff {maxIter : Nat} {x x' : Array α} {w w' : Scratch α} {result : Result α}
    (h : run q maxIter x w = .ok (result, x', w')) :
    (result.converged = true ↔ result.residual ≤ q.threshold) ∧
      (result.converged = true → Measured q x' w' result.residual) := by
  rcases run_eq_ok_iff.1 h with ⟨norm, htrue, hnorm, rfl, rfl⟩ |
    ⟨s, k, t, converged, hbegins, hiterate, -, rfl, rfl, rfl⟩
  · exact ⟨iff_of_true rfl hnorm, fun _ => ⟨w, htrue⟩⟩
  · obtain ⟨w₁, w₂, norm, rz, -, hnorm, -, -⟩ := hbegins
    have hstands := stands_of_iterate hnorm hiterate
    cases converged with
    | true => exact ⟨iff_of_true rfl hstands.1, fun _ => hstands.2⟩
    | false => exact ⟨iff_of_false Bool.false_ne_true hstands, nofun⟩

end ConjugateGradient

end Quasidefinite

import Quasidefinite.Proofs.Euclidean
import Quasidefinite.Proofs.Indirect.Iteration

/-!
# The residual that conjugate gradients report

In exact arithmetic the residual that an iteration carries along is the true residual of the
iterate, and the smallest norm so far is that of the residual of the best iterate (`Tracks`). This
needs no property of the operator beyond being that of a matrix. So a run hands back a vector
together with the norm of its residual, and it has converged if and only if that norm is below the
threshold, whichever way it ended (`Problem.Denotes.exists_run`).
-/

namespace Quasidefinite

namespace ConjugateGradient

open scoped Scalar Matrix

variable {K : Type} [Field K] [LinearOrder K] [SquareRoot K] {n : Nat}
  {M D : Matrix (Fin n) (Fin n) K} {q : Problem K} {s t : Run K}

/-! ## 1. Iterations in exact arithmetic -/

/-- The operator and the preconditioner are those of the matrices `M` and `D`. -/
structure Problem.Denotes (q : Problem K) (n : Nat) (M D : Matrix (Fin n) (Fin n) K) : Prop
    extends q.Fits n where
  op_eq : ∀ {y v z}, y.size = n → v.size = n → q.op y v = .ok z →
    vector n z = M *ᵥ vector n v
  precond_eq : ∀ {z r y}, z.size = n → r.size = n → q.precond z r = .ok y →
    vector n y = D *ᵥ vector n r

/-- The residual of a vector. -/
def Problem.residual (q : Problem K) (M : Matrix (Fin n) (Fin n) K) (x : Array K) : Fin n → K :=
  vector n q.rhs - M *ᵥ vector n x

/-- The iterate has moved along the direction of search to where the residual is orthogonal to
    it, and the residual with it. -/
structure Travels (M : Matrix (Fin n) (Fin n) K) (s t : Run K) : Prop where
  x_eq : vector n t.x = vector n s.x +
    (s.rz / (vector n s.work.p ⬝ᵥ M *ᵥ vector n s.work.p)) • vector n s.work.p
  r_eq : vector n t.work.r = vector n s.work.r -
    (s.rz / (vector n s.work.p ⬝ᵥ M *ᵥ vector n s.work.p)) • M *ᵥ vector n s.work.p
  p_eq : t.work.p = s.work.p
  best_eq : t.work.best = s.work.best
  rz_eq : t.rz = s.rz
  bestNorm_eq : t.bestNorm = s.bestNorm

/-- The direction of search is turned, and its new inner product is kept. -/
structure Turns (D : Matrix (Fin n) (Fin n) K) (s t : Run K) : Prop where
  p_eq : vector n t.work.p = D *ᵥ vector n s.work.r +
    (t.rz / s.rz) • vector n s.work.p
  rz_eq : t.rz = vector n s.work.r ⬝ᵥ D *ᵥ vector n s.work.r
  x_eq : t.x = s.x
  r_eq : t.work.r = s.work.r
  best_eq : t.work.best = s.work.best
  bestNorm_eq : t.bestNorm = s.bestNorm

section Denotes

variable (hq : q.Denotes n M D)

include hq

theorem Problem.Denotes.travels (h : Moved q s t) (hs : s.Sized n) : Travels M s t := by
  obtain ⟨image, curvature, himage, hcurvature, -, hadvance⟩ := h
  obtain ⟨x, r, hx, hr, rfl⟩ := advance_eq_ok.1 hadvance
  have hsize := (hq.size_op himage).trans hs.work.size_image
  have himage := hq.op_eq hs.work.size_image hs.work.size_p himage
  obtain rfl : vector n s.work.p ⬝ᵥ M *ᵥ vector n s.work.p = curvature := by
    rw [Vec.dot_eq hs.work.size_p hsize, himage] at hcurvature
    exact Except.ok.inj hcurvature
  exact {
    x_eq := by rw [Vec.vector_axpby hx hs.size_x, one_smul, add_comm]
    r_eq := by
      rw [Vec.vector_axpby hr hs.work.size_r, himage, one_smul, neg_smul, neg_add_eq_sub]
    p_eq := rfl
    best_eq := rfl
    rz_eq := rfl
    bestNorm_eq := rfl }

theorem Problem.Denotes.turns (h : turn q s = .ok t) (hs : s.Sized n) : Turns D s t := by
  obtain ⟨z, rz, p, hz, hrz, hp, rfl⟩ := turn_eq_ok.1 h
  have hsize := (hq.size_precond hz).trans hs.work.size_z
  have hz := hq.precond_eq hs.work.size_z hs.work.size_r hz
  rw [Vec.dot_eq hs.work.size_r hsize, hz] at hrz
  exact {
    p_eq := by rw [Vec.vector_axpby hp hs.work.size_p, hz, one_smul]
    rz_eq := (Except.ok.inj hrz).symm
    x_eq := rfl
    r_eq := rfl
    best_eq := rfl
    bestNorm_eq := rfl }

theorem Problem.Denotes.vector_trueResidual {x : Array K} {w w' : Scratch K} {norm : K}
    (hx : x.size = n) (hw : w.Sized n) (h : trueResidual q x w = .ok (w', norm)) :
    vector n w'.r = q.residual M x ∧ norm = euclidean (q.residual M x) ∧
      w'.best = w.best := by
  obtain ⟨image, r, himage, hr, rfl, rfl⟩ := trueResidual_eq_ok.1 h
  have hresidual : vector n r = q.residual M x := by
    rw [Vec.vector_waxpby hr hw.size_r, hq.op_eq hw.size_image hx himage, one_smul, neg_one_smul,
      ← sub_eq_add_neg, residual]
  refine ⟨hresidual, ?_, rfl⟩
  rw [Vec.norm_eq ((Vec.size_waxpby hr).trans hw.size_r), hresidual]

theorem Problem.Denotes.vector_restart {w w' : Scratch K} {rz : K} (hw : w.Sized n)
    (h : restart q w = .ok (w', rz)) : vector n w'.p = D *ᵥ vector n w.r ∧
      rz = vector n w.r ⬝ᵥ D *ᵥ vector n w.r ∧ w'.r = w.r ∧ w'.best = w.best := by
  obtain ⟨z, hz, -, hrz, rfl⟩ := restart_eq_ok.1 h
  have hsize := (hq.size_precond hz).trans hw.size_z
  have hz := hq.precond_eq hw.size_z hw.size_r hz
  rw [Vec.dot_eq hw.size_r hsize, hz] at hrz
  exact ⟨hz, (Except.ok.inj hrz).symm, rfl, rfl⟩

end Denotes

/-! ## 2. Carried and true residuals -/

/-- The carried residual is the true one, and the smallest norm is that of the best iterate. -/
structure Tracks (q : Problem K) (M : Matrix (Fin n) (Fin n) K) (s : Run K) : Prop
    extends s.Sized n where
  residual_eq : vector n s.work.r = q.residual M s.x
  bestNorm_eq : s.bestNorm = euclidean (q.residual M s.work.best)
  above : ¬ s.bestNorm ≤ q.threshold

/-- A run has ended, with the norm of the residual of the vector that it hands back. -/
structure Ends (q : Problem K) (M : Matrix (Fin n) (Fin n) K) (converged : Bool) (s : Run K) :
    Prop extends s.Sized n where
  bestNorm_eq : s.bestNorm = euclidean (q.residual M (s.outcome converged))
  converged_iff : converged = true ↔ s.bestNorm ≤ q.threshold

theorem Tracks.ends (h : Tracks q M s) : Ends q M false s where
  toSized := h.toSized
  bestNorm_eq := h.bestNorm_eq
  converged_iff := iff_of_false Bool.false_ne_true h.above

/-- What an iteration leads to. -/
def Leads (q : Problem K) (M : Matrix (Fin n) (Fin n) K) : Progress K → Prop
  | .running s => Tracks q M s
  | .brokenDown s => Ends q M false s
  | .converged s => Ends q M true s

/-- An iterate may be kept as the best one if its residual is carried. -/
theorem Tracks.of_keepBest {norm : K} (hs : s.Sized n)
    (hresidual : vector n s.work.r = q.residual M s.x)
    (hbest : s.bestNorm = euclidean (q.residual M s.work.best))
    (habove : ¬ s.bestNorm ≤ q.threshold) (hnorm : norm = euclidean (q.residual M s.x))
    (hlarge : ¬ norm ≤ q.threshold) (h : keepBest s norm = .ok t) : Tracks q M t := by
  have ht := sized_of_keepBest hs h
  rcases keepBest_eq_ok.1 h with ⟨-, -, rfl⟩ | ⟨-, rfl⟩
  · exact ⟨ht, hresidual, hnorm, hlarge⟩
  · exact ⟨ht, hresidual, hbest, habove⟩

section Denotes

variable (hq : q.Denotes n M D)

include hq

/-- The residual moves with the iterate. -/
theorem Tracks.residual_of_moved (hs : Tracks q M s) (h : Moved q s t) :
    vector n t.work.r = q.residual M t.x := by
  have ht := hq.travels h hs.toSized
  rw [ht.r_eq, hs.residual_eq, Problem.residual, Problem.residual, ht.x_eq, Matrix.mulVec_add,
    Matrix.mulVec_smul, sub_add_eq_sub_sub]

/-- **An iteration keeps the carried residual true.** -/
theorem Iteration.leads {branch : Branch} {p : Progress K} (h : Iteration q s branch p)
    (hs : Tracks q M s) : Leads q M p := by
  have hsized := h.sized hq.toKeeps hs.toSized
  cases h with
  | brokenDown image curvature himage hcurvature hpositive =>
    exact Tracks.ends ⟨hsized, hs.residual_eq, hs.bestNorm_eq, hs.above⟩
  | converged t work norm hmoved hcarried htrue hnorm =>
    have ht := hmoved.sized hq.toKeeps hs.toSized
    obtain ⟨-, heq, -⟩ := hq.vector_trueResidual ht.size_x ht.work htrue
    exact ⟨hsized, heq, iff_of_true rfl hnorm⟩
  | restarted t u work work' norm rz hmoved hcarried htrue hnorm hrestart hkeep =>
    have ht := hmoved.sized hq.toKeeps hs.toSized
    have htravels := hq.travels hmoved hs.toSized
    have hwork := sized_of_trueResidual hq.toKeeps ht.work htrue
    obtain ⟨hr, heq, hbest⟩ := hq.vector_trueResidual ht.size_x ht.work htrue
    obtain ⟨-, -, hr', hbest'⟩ := hq.vector_restart hwork hrestart
    refine Tracks.of_keepBest (s := { t with work := work', rz })
      ⟨ht.size_x, sized_of_restart hq.toKeeps hwork hrestart⟩ (hr' ▸ hr) ?_ ?_ heq hnorm hkeep
    · show t.bestNorm = euclidean (q.residual M work'.best)
      rw [hbest', hbest, htravels.best_eq, htravels.bestNorm_eq, hs.bestNorm_eq]
    · exact htravels.bestNorm_eq ▸ hs.above
  | turned t u v hmoved hcarried hkeep hturn =>
    have ht := hmoved.sized hq.toKeeps hs.toSized
    have htravels := hq.travels hmoved hs.toSized
    have hr := hs.residual_of_moved hq hmoved
    have hu := Tracks.of_keepBest ht hr
      (by rw [htravels.best_eq, htravels.bestNorm_eq, hs.bestNorm_eq])
      (htravels.bestNorm_eq ▸ hs.above) (by rw [Vec.norm_eq ht.work.size_r, hr]) hcarried hkeep
    have hturns := hq.turns hturn hu.toSized
    exact {
      toSized := hsized
      residual_eq := by rw [hturns.r_eq, hturns.x_eq, hu.residual_eq]
      bestNorm_eq := by rw [hturns.bestNorm_eq, hturns.best_eq, hu.bestNorm_eq]
      above := hturns.bestNorm_eq ▸ hu.above }

theorem Begins.tracks {x : Array K} {w : Scratch K} (h : Begins q x w s) (hx : x.size = n)
    (hw : w.Sized n) : Tracks q M s := by
  have hsized := h.sized hq.toKeeps hx hw
  obtain ⟨w₁, w₂, norm, rz, htrue, hnorm, -, hrestart⟩ := h
  have hw₁ := sized_of_trueResidual hq.toKeeps hw htrue
  obtain ⟨hr, heq, -⟩ := hq.vector_trueResidual hx hw htrue
  obtain ⟨-, -, hr', hbest⟩ := hq.vector_restart (w := { w₁ with best := x })
    { hw₁ with size_best := hx } hrestart
  exact ⟨hsized, hr' ▸ hr, by rw [heq, hbest], hnorm⟩

/-! ## 3. Runs -/

theorem Tracks.exists_iterate (hs : Tracks q M s) (count done : Nat) :
    ∃ k t converged, iterate q count done s = .ok (k, t, converged) ∧ Ends q M converged t := by
  induction count generalizing done s with
  | zero => exact ⟨done, s, false, rfl, hs.ends⟩
  | succ count ih =>
    obtain ⟨branch, p, hstep, hbranch⟩ := hq.exists_step hs.toSized
    have hleads := hbranch.leads hq hs
    rw [iterate, hstep, Checked.ok_bind]
    cases p with
    | running t => exact ih hleads (done + 1)
    | brokenDown t => exact ⟨done + 1, t, false, rfl, hleads⟩
    | converged t => exact ⟨done + 1, t, true, rfl, hleads⟩

/-- **A run reports the norm of the residual of the vector that it hands back**, and whether that
    norm is below the threshold. -/
theorem Problem.Denotes.exists_run {x : Array K} {w : Scratch K} (hx : x.size = n)
    (hw : w.Sized n) (maxIter : Nat) :
    ∃ result x' w', run q maxIter x w = .ok (result, x', w') ∧ x'.size = n ∧
      result.residual = euclidean (q.residual M x') ∧
      (result.converged = true ↔ result.residual ≤ q.threshold) := by
  suffices h : ∃ result x' w', run q maxIter x w = .ok (result, x', w') ∧
      result.residual = euclidean (q.residual M x') ∧
      (result.converged = true ↔ result.residual ≤ q.threshold) by
    obtain ⟨result, x', w', hrun, hresidual, hconverged⟩ := h
    exact ⟨result, x', w', hrun, (sized_of_run hq.toKeeps hx hw hrun).1, hresidual, hconverged⟩
  obtain ⟨w₁, norm, htrue⟩ := hq.exists_trueResidual hx hw
  by_cases hnorm : norm ≤ q.threshold
  · obtain ⟨-, heq, -⟩ := hq.vector_trueResidual hx hw htrue
    exact ⟨_, x, w₁, run_eq_ok_iff.2 (.inl ⟨norm, htrue, hnorm, rfl, rfl⟩), heq,
      iff_of_true rfl hnorm⟩
  · obtain ⟨s, hbegins⟩ := hq.exists_begins hx hw htrue hnorm
    obtain ⟨k, t, converged, hiterate, hends⟩ :=
      (hbegins.tracks hq hx hw).exists_iterate hq maxIter 0
    exact ⟨_, _, _, run_eq_ok_iff.2 (.inr ⟨_, k, t, converged, hbegins, hiterate,
      fun _ => hends.size_x.trans hends.work.size_best.symm, rfl, rfl, rfl⟩), hends.bestNorm_eq,
      hends.converged_iff⟩

end Denotes

end ConjugateGradient

end Quasidefinite

import Quasidefinite.Proofs.Indirect.Iteration

/-!
# Runs forget their scratch space

A run answers as soon as the operator and the preconditioner do (`Problem.Fits.exists_run`). If
these merely write over the vector they are given, whatever it holds (`Problem.Oblivious`), then so
does the run: what it hands back does not depend on what its scratch space held before
(`run_congr`). By the time of the first iteration every vector of the scratch space has been
overwritten, so that two runs for the same problem from the same start make their iterations in
the very same state (`Begins.congr`).
-/

namespace Quasidefinite

namespace ConjugateGradient

variable {α : Type} [Scalar α] {q : Problem α} {n : Nat} {x : Array α} {w : Scratch α}

/-! ## 1. Totality -/

section Total

variable (hq : q.Fits n)

include hq

/-- **The iterations of a run answer.** -/
theorem Problem.Fits.exists_iterate {s : Run α} (hs : s.Sized n) (count done : Nat) :
    ∃ k t converged, iterate q count done s = .ok (k, t, converged) := by
  induction count generalizing done s with
  | zero => exact ⟨done, s, false, rfl⟩
  | succ count ih =>
    obtain ⟨branch, p, hstep, hbranch⟩ := hq.exists_step hs
    have hsized := hbranch.sized hq.toKeeps hs
    rw [iterate, hstep, Checked.ok_bind]
    cases p with
    | running t => exact ih hsized (done + 1)
    | brokenDown t => exact ⟨done + 1, t, false, rfl⟩
    | converged t => exact ⟨done + 1, t, true, rfl⟩

/-- **A run answers.** -/
theorem Problem.Fits.exists_run (hx : x.size = n) (hw : w.Sized n) (maxIter : Nat) :
    ∃ result y w', run q maxIter x w = .ok (result, y, w') := by
  obtain ⟨w₁, norm, htrue⟩ := hq.exists_trueResidual hx hw
  by_cases hnorm : norm ≤ q.threshold
  · exact ⟨_, x, w₁, run_eq_ok_iff.2 (.inl ⟨norm, htrue, hnorm, rfl, rfl⟩)⟩
  · obtain ⟨s, hbegins⟩ := hq.exists_begins hx hw htrue hnorm
    have hs := hbegins.sized hq.toKeeps hx hw
    obtain ⟨k, t, converged, hiterate⟩ := hq.exists_iterate hs maxIter 0
    have ht := sized_of_iterate hq.toKeeps hs hiterate
    exact ⟨_, _, _, run_eq_ok_iff.2 (.inr ⟨_, k, t, converged, hbegins, hiterate,
      fun _ => ht.size_x.trans ht.work.size_best.symm, rfl, rfl, rfl⟩)⟩

end Total

/-! ## 2. Scratch space -/

/-- On vectors of length `n` the operator and the preconditioner overlook what stands in the vector
    they write over. -/
structure Problem.Oblivious (q : Problem α) (n : Nat) : Prop where
  op_eq : ∀ {y y' v : Array α}, y.size = n → y'.size = n → v.size = n → q.op y v = q.op y' v
  precond_eq : ∀ {z z' : Array α} (r : Array α), z.size = n → z'.size = n →
    q.precond z r = q.precond z' r

variable {w' : Scratch α} (hq : q.Oblivious n) (hkeeps : q.Keeps) (hx : x.size = n)
  (hw : w.Sized n) (hw' : w'.Sized n)

include hq hw hw'

/-- The true residual is found whatever the scratch space holds. -/
theorem trueResidual_congr {t : Scratch α} {norm : α} (hx : x.size = n)
    (h : trueResidual q x w = .ok (t, norm)) :
    trueResidual q x w' = .ok ({ w' with r := t.r, image := t.image }, norm) := by
  obtain ⟨image, r, himage, hr, rfl, rfl⟩ := trueResidual_eq_ok.1 h
  obtain ⟨hrhs, hsize, rfl⟩ := Vec.waxpby_eq_ok.1 hr
  refine trueResidual_eq_ok.2 ⟨image, _, ?_, Vec.waxpby_eq_ok.2 ⟨?_, ?_, rfl⟩, rfl, rfl⟩
  · rw [hq.op_eq hw'.size_image hw.size_image hx, himage]
  · rw [hw'.size_r, ← hw.size_r, hrhs]
  · rw [hw'.size_r, ← hw.size_r, hsize]

include hkeeps hx

/-- **Runs for the same problem from the same start begin their iterations in the same state.** -/
theorem Begins.congr {s : Run α} (h : Begins q x w s) : Begins q x w' s := by
  obtain ⟨w₁, w₂, norm, rz, htrue, hnorm, hbest, hrestart⟩ := h
  have htrue' := trueResidual_congr hq hw hw' hx htrue
  have hw₁ := sized_of_trueResidual hkeeps hw htrue
  obtain ⟨z, hz, hsize, hrz, rfl⟩ := restart_eq_ok.1 hrestart
  refine ⟨_, { w₁ with best := x, z, p := z }, norm, rz, htrue', hnorm,
    hw'.size_best.trans hx.symm, restart_eq_ok.2 ⟨z, ?_, ?_, hrz, ?_⟩⟩
  · exact (hq.precond_eq _ hw'.size_z hw₁.size_z).trans hz
  · exact (hw'.size_p.trans hw₁.size_p.symm).trans hsize
  · rfl

/-- **What a run hands back does not depend on what its scratch space held.** -/
theorem run_congr {maxIter : Nat} {result : Result α} {y : Array α} {t : Scratch α}
    (h : run q maxIter x w = .ok (result, y, t)) :
    ∃ t', run q maxIter x w' = .ok (result, y, t') := by
  rcases run_eq_ok_iff.1 h with ⟨norm, htrue, hnorm, rfl, rfl⟩ |
    ⟨s, k, u, converged, hbegins, hiterate, hsize, rfl, rfl, rfl⟩
  · exact ⟨_, run_eq_ok_iff.2
      (.inl ⟨norm, trueResidual_congr hq hw hw' hx htrue, hnorm, rfl, rfl⟩)⟩
  · exact ⟨_, run_eq_ok_iff.2 (.inr ⟨s, k, u, converged, hbegins.congr hq hkeeps hx hw hw',
      hiterate, hsize, rfl, rfl, rfl⟩)⟩

end ConjugateGradient

end Quasidefinite

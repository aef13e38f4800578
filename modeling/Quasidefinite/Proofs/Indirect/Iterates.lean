import Quasidefinite.Proofs.Comparison
import Quasidefinite.Proofs.Indirect.Convergence
import Quasidefinite.Proofs.Indirect.Oblivious

/-!
# What a run hands back, for any operator

Nothing is asked of the operator and the preconditioner here but that they are functions of vectors
(`Problem.ofFunctions`), and of the arithmetic only that `<` is a strict order, as it is where
values that are not numbers do not compare. For every iterate of a run a residual is recorded: the
carried one, or the true one where the carried one has come down to the threshold (`Iterates`).
Whatever its iterations do, the run keeps an iterate than which none so far has a smaller recorded
residual (`BestIterate.step`), and a run that does not converge hands that one back
(`handsBack_of_run`). What else the result of a run says is true as well (`run_trustworthy`).
-/

namespace Quasidefinite

namespace ConjugateGradient

variable {α : Type} [Scalar α] {q : Problem α} {x : Array α} {w : Scratch α} {s t : Run α}

/-! ## 1. Iterates -/

/-- The run from `x` is in this state after `k` iterations, none of which has ended it. -/
inductive Reaches (q : Problem α) (x : Array α) (w : Scratch α) : Nat → Run α → Prop
  | start (s : Run α) (h : Begins q x w s) : Reaches q x w 0 s
  | next (k : Nat) (s t : Run α) (h : Reaches q x w k s) (hstep : step q s = .ok (.running t)) :
      Reaches q x w (k + 1) t

/-- The residual that is recorded for an iterate that has been moved to: the carried one, or the
    true one where the carried one has come down to the threshold. -/
def recorded (q : Problem α) (t : Run α) : Checked α :=
  if Vec.norm t.work.r ≤ q.threshold then do
    let (_, norm) ← trueResidual q t.x t.work
    pure norm
  else pure (Vec.norm t.work.r)

/-- **The iterates of the run from `x`**, numbered from the start on, and the residuals that are
    recorded for them. -/
inductive Iterates (q : Problem α) (x : Array α) (w : Scratch α) : Nat → Array α → α → Prop
  | start (w' : Scratch α) (norm : α) (h : trueResidual q x w = .ok (w', norm)) :
      Iterates q x w 0 x norm
  | moved (k : Nat) (s t : Run α) (norm : α) (h : Reaches q x w k s) (hmoved : Moved q s t)
      (hnorm : recorded q t = .ok norm) : Iterates q x w (k + 1) t.x norm

theorem recorded_of_not_le (h : ¬ Vec.norm t.work.r ≤ q.threshold) :
    recorded q t = .ok (Vec.norm t.work.r) := if_neg h

theorem recorded_of_le {w' : Scratch α} {norm : α} (h : Vec.norm t.work.r ≤ q.threshold)
    (htrue : trueResidual q t.x t.work = .ok (w', norm)) : recorded q t = .ok norm := by
  rw [recorded, if_pos h, htrue]
  rfl

/-! ## 2. There is one iterate of every number -/

theorem Moved.unique {t' : Run α} (h : Moved q s t) (h' : Moved q s t') : t = t' := by
  obtain ⟨image, curvature, himage, hcurvature, -, hadvance⟩ := h
  obtain ⟨image', curvature', himage', hcurvature', -, hadvance'⟩ := h'
  cases himage.symm.trans himage'
  cases hcurvature.symm.trans hcurvature'
  exact Except.ok.inj (hadvance.symm.trans hadvance')

theorem Begins.unique (h : Begins q x w s) (h' : Begins q x w t) : s = t := by
  obtain ⟨w₁, w₂, norm, rz, htrue, -, -, hrestart⟩ := h
  obtain ⟨w₁', w₂', norm', rz', htrue', -, -, hrestart'⟩ := h'
  cases htrue.symm.trans htrue'
  cases hrestart.symm.trans hrestart'
  rfl

theorem Reaches.unique {k : Nat} (h : Reaches q x w k s) (h' : Reaches q x w k t) : s = t := by
  induction h generalizing t with
  | start s hs =>
    cases h' with
    | start t ht => exact hs.unique ht
  | next k s u _ hstep ih =>
    cases h' with
    | next k s' t h' hstep' =>
      cases ih h'
      cases hstep.symm.trans hstep'
      rfl

/-- The iterate that is moved to after `k` iterations is the next one, and there is no other. -/
theorem iterates_succ_iff {k : Nat} (hs : Reaches q x w k s) {v : Array α} {norm : α} :
    Iterates q x w (k + 1) v norm ↔ ∃ t, Moved q s t ∧ v = t.x ∧ recorded q t = .ok norm := by
  constructor
  · intro h
    cases h with
    | moved _ s' t _ hs' hmoved hnorm =>
      cases hs.unique hs'
      exact ⟨t, hmoved, rfl, hnorm⟩
  · intro h
    obtain ⟨t, hmoved, rfl, hnorm⟩ := h
    exact .moved k s t norm hs hmoved hnorm

/-- Before a state that a run is in after `k` iterations comes one for every smaller number. -/
theorem Reaches.exists_step {j k : Nat} (h : Reaches q x w k t) (hj : j < k) :
    ∃ s u, Reaches q x w j s ∧ step q s = .ok (.running u) := by
  induction h with
  | start t ht => exact absurd hj (Nat.not_lt_zero j)
  | next k s t hs hstep ih =>
    rcases Nat.lt_succ_iff_lt_or_eq.1 hj with hlt | rfl
    · exact ih hlt
    · exact ⟨s, t, hs, hstep⟩

/-- No iterate comes after an iteration that breaks down. -/
theorem Iterates.le_of_brokenDown {j k : Nat} {y : Array α} {norm : α}
    (h : Iterates q x w j y norm) (hs : Reaches q x w k s)
    (hstep : step q s = .ok (.brokenDown t)) : j ≤ k + 1 := by
  cases h with
  | start w' _ htrue => exact Nat.zero_le _
  | moved i u v _ hu hmoved hnorm =>
    by_contra hlt
    obtain ⟨s', u', hs', hstep'⟩ := hu.exists_step (j := k) (by omega)
    cases hs.unique hs'
    cases hstep.symm.trans hstep'

/-! ## 3. The best iterate -/

/-- The vector is one of the first `k` iterates after the start, or the start, with its recorded
    residual, and none of them has a smaller one. -/
structure BestIterate (q : Problem α) (x : Array α) (w : Scratch α) (k : Nat) (y : Array α)
    (residual : α) : Prop where
  attained : ∃ j ≤ k, Iterates q x w j y residual
  least : ∀ j ≤ k, ∀ v norm, Iterates q x w j v norm → ¬ norm < residual

/-- Of the `maxIter` iterations that it may make, the run from `x` makes `count`, after which it
    comes to no further iterate, and hands back the best of its iterates. -/
structure HandsBack (q : Problem α) (maxIter : Nat) (x : Array α) (w : Scratch α) (count : Nat)
    (y : Array α) (residual : α) : Prop extends BestIterate q x w count y residual where
  count_le : count ≤ maxIter
  complete : ∀ j ≤ maxIter, ∀ v norm, Iterates q x w j v norm → j ≤ count

/-- An iterate that is no better may be added. -/
theorem BestIterate.keep {k : Nat} {y : Array α} {residual : α}
    (h : BestIterate q x w k y residual)
    (hnext : ∀ v norm, Iterates q x w (k + 1) v norm → ¬ norm < residual) :
    BestIterate q x w (k + 1) y residual := by
  obtain ⟨⟨j, hj, hiterate⟩, hleast⟩ := h
  refine ⟨⟨j, Nat.le_succ_of_le hj, hiterate⟩, fun i hi v norm hv => ?_⟩
  rcases Nat.le_succ_iff.1 hi with hle | rfl
  · exact hleast i hle v norm hv
  · exact hnext v norm hv

theorem Moved.best_eq (h : Moved q s t) : t.work.best = s.work.best := by
  obtain ⟨image, curvature, -, -, -, hadvance⟩ := h
  obtain ⟨x, r, -, -, rfl⟩ := advance_eq_ok.1 hadvance
  rfl

theorem best_eq_of_trueResidual {w' : Scratch α} {norm : α}
    (h : trueResidual q x w = .ok (w', norm)) : w'.best = w.best := by
  obtain ⟨image, r, -, -, rfl, -⟩ := trueResidual_eq_ok.1 h
  rfl

theorem best_eq_of_restart {w' : Scratch α} {rz : α} (h : restart q w = .ok (w', rz)) :
    w'.best = w.best := by
  obtain ⟨z, -, -, -, rfl⟩ := restart_eq_ok.1 h
  rfl

section Best

variable [IsStrictOrder α (· < ·)]

theorem BestIterate.start (h : Begins q x w s) : BestIterate q x w 0 s.work.best s.bestNorm := by
  obtain ⟨w₁, w₂, norm, rz, htrue, -, -, hrestart⟩ := h
  obtain ⟨z, -, -, -, rfl⟩ := restart_eq_ok.1 hrestart
  refine ⟨⟨0, Nat.le_refl 0, .start w₁ norm htrue⟩, fun j hj v norm' hiterate => ?_⟩
  cases Nat.le_zero.1 hj
  cases hiterate with
  | start w' _ htrue' =>
    cases htrue.symm.trans htrue'
    exact irrefl_of (· < ·) norm

/-- An iterate that is better takes the place of the best one. -/
theorem BestIterate.replace {k : Nat} {y v : Array α} {residual norm : α}
    (h : BestIterate q x w k y residual) (hlt : norm < residual)
    (hiterate : Iterates q x w (k + 1) v norm)
    (hunique : ∀ v' norm', Iterates q x w (k + 1) v' norm' → norm' = norm) :
    BestIterate q x w (k + 1) v norm := by
  refine ⟨⟨k + 1, Nat.le_refl _, hiterate⟩, fun i hi v' norm' hv' hless => ?_⟩
  rcases Nat.le_succ_iff.1 hi with hle | rfl
  · exact h.least i hle v' norm' hv' (trans_of (· < ·) hless hlt)
  · cases hunique v' norm' hv'
    exact irrefl_of (· < ·) norm hless

/-- What is kept of the iterate moved to is the best of all. -/
theorem BestIterate.keepBest {k : Nat} {u v : Run α} {norm : α} (hs : Reaches q x w k s)
    (hbest : BestIterate q x w k s.work.best s.bestNorm) (hmoved : Moved q s t)
    (hnorm : recorded q t = .ok norm) (hx : u.x = t.x) (hkept : u.work.best = s.work.best)
    (hbestNorm : u.bestNorm = s.bestNorm) (hkeep : ConjugateGradient.keepBest u norm = .ok v) :
    BestIterate q x w (k + 1) v.work.best v.bestNorm := by
  have hunique : ∀ v' norm', Iterates q x w (k + 1) v' norm' → norm' = norm := by
    intro v' norm' hiterate
    obtain ⟨t', hmoved', -, hnorm'⟩ := (iterates_succ_iff hs).1 hiterate
    cases hmoved.unique hmoved'
    exact Except.ok.inj (hnorm'.symm.trans hnorm)
  rcases keepBest_eq_ok.1 hkeep with ⟨hlt, -, rfl⟩ | ⟨hnot, rfl⟩
  · rw [hbestNorm] at hlt
    exact hbest.replace hlt ((iterates_succ_iff hs).2 ⟨t, hmoved, hx, hnorm⟩) hunique
  · rw [hkept, hbestNorm]
    rw [hbestNorm] at hnot
    exact hbest.keep fun v' norm' hiterate => hunique v' norm' hiterate ▸ hnot

/-- **An iteration that does not converge keeps the best iterate**, whether the run goes on after
    it or not. -/
theorem BestIterate.step {k : Nat} {branch : Branch} {p : Progress α} (hs : Reaches q x w k s)
    (hbest : BestIterate q x w k s.work.best s.bestNorm) (h : Iteration q s branch p)
    (hgoing : ∀ u, p ≠ .converged u) :
    BestIterate q x w (k + 1) p.state.work.best p.state.bestNorm := by
  cases h with
  | brokenDown image curvature himage hcurvature hpositive =>
    -- There is no next iterate.
    refine hbest.keep fun v norm hiterate => ?_
    obtain ⟨t, ⟨image', curvature', himage', hcurvature', hpositive', -⟩, -⟩ :=
      (iterates_succ_iff hs).1 hiterate
    cases himage.symm.trans himage'
    cases hcurvature.symm.trans hcurvature'
    exact absurd hpositive' hpositive
  | converged t work norm hmoved hcarried htrue hnorm => exact absurd rfl (hgoing _)
  | restarted t u work work' norm rz hmoved hcarried htrue hnorm hrestart hkeep =>
    exact .keepBest (u := { t with work := work', rz }) hs hbest hmoved
      (recorded_of_le hcarried htrue) rfl
      ((best_eq_of_restart hrestart).trans ((best_eq_of_trueResidual htrue).trans hmoved.best_eq))
      hmoved.bestNorm_eq hkeep
  | turned t u v hmoved hcarried hkeep hturn =>
    have hu := BestIterate.keepBest hs hbest hmoved (recorded_of_not_le hcarried) rfl
      hmoved.best_eq hmoved.bestNorm_eq hkeep
    obtain ⟨z, rz, p, -, -, -, rfl⟩ := turn_eq_ok.1 hturn
    exact hu

/-- **Iterations that end without convergence end with the best iterate of all.** -/
theorem bestIterate_of_iterate {count done k : Nat} (hs : Reaches q x w done s)
    (hbest : BestIterate q x w done s.work.best s.bestNorm)
    (h : iterate q count done s = .ok (k, t, false)) :
    BestIterate q x w k t.work.best t.bestNorm := by
  induction count generalizing done s with
  | zero =>
    cases h
    exact hbest
  | succ count ih =>
    rw [iterate] at h
    obtain ⟨p, hp, h⟩ := Checked.bind_eq_ok.1 h
    obtain ⟨branch, hbranch⟩ := step_eq_ok_iff.1 hp
    cases p with
    | running u =>
      exact ih (.next done s u hs hp) (hbest.step hs hbranch fun v hv => by cases hv) h
    | brokenDown u =>
      cases h
      exact hbest.step hs hbranch fun v hv => by cases hv
    | converged u => cases h

end Best

/-- **Iterations that end without convergence come to every iterate** of those that may be made. -/
theorem Iterates.le_of_iterate {count done j k : Nat} {y : Array α} {norm : α}
    (h : Iterates q x w j y norm) (hs : Reaches q x w done s)
    (hiterate : iterate q count done s = .ok (k, t, false)) (hj : j ≤ done + count) : j ≤ k := by
  induction count generalizing done s with
  | zero =>
    cases hiterate
    exact hj
  | succ count ih =>
    rw [iterate] at hiterate
    obtain ⟨p, hp, hiterate⟩ := Checked.bind_eq_ok.1 hiterate
    cases p with
    | running u => exact ih (.next done s u hs hp) hiterate (by omega)
    | brokenDown u =>
      cases hiterate
      exact h.le_of_brokenDown hs hp
    | converged u => cases hiterate

/-- Iterations are not more than may be made. -/
theorem le_of_iterate {count done k : Nat} {converged : Bool}
    (h : iterate q count done s = .ok (k, t, converged)) : k ≤ done + count := by
  induction count generalizing done s with
  | zero =>
    cases h
    exact Nat.le_refl _
  | succ count ih =>
    rw [iterate] at h
    obtain ⟨p, -, h⟩ := Checked.bind_eq_ok.1 h
    cases p with
    | running u => exact (ih h).trans (by omega)
    | brokenDown u =>
      cases h
      omega
    | converged u =>
      cases h
      omega

/-! ## 4. Runs -/

section Result

variable {maxIter : Nat} {y : Array α} {w' : Scratch α} {result : Result α}
  (h : run q maxIter x w = .ok (result, y, w'))

include h

/-- A run makes no more iterations than it may. -/
theorem iterations_le_of_run : result.iterations ≤ maxIter := by
  rcases run_eq_ok_iff.1 h with ⟨norm, -, -, -, rfl⟩ | ⟨s, k, t, c, -, hiterate, -, -, -, rfl⟩
  · exact Nat.zero_le _
  · exact (Nat.mod_le _ _).trans ((le_of_iterate hiterate).trans_eq (Nat.zero_add _))

/-- A start that is good enough is handed back at once. -/
theorem start_of_run {t : Scratch α} {norm : α} (htrue : trueResidual q x w = .ok (t, norm))
    (hnorm : norm ≤ q.threshold) : result.iterations = 0 ∧ y = x := by
  rcases run_eq_ok_iff.1 h with ⟨norm', -, -, rfl, rfl⟩ |
    ⟨s, k, t, c, ⟨w₁, w₂, norm', rz, htrue', hnorm', -, -⟩, -⟩
  · exact ⟨rfl, rfl⟩
  · cases htrue.symm.trans htrue'
    exact absurd hnorm hnorm'

/-- **A run that does not converge hands back its best iterate**, whatever its operator and its
    preconditioner are. -/
theorem handsBack_of_run [IsStrictOrder α (· < ·)] (hconverged : result.converged = false) :
    ∃ count, result.iterations = count % UInt32.size ∧
      HandsBack q maxIter x w count y result.residual := by
  rcases run_eq_ok_iff.1 h with ⟨norm, -, -, rfl, rfl⟩ |
    ⟨s, k, t, c, hbegins, hiterate, -, rfl, rfl, rfl⟩
  · cases hconverged
  · obtain rfl : c = false := hconverged
    have hstart : Reaches q x w 0 s := .start s hbegins
    have hbest := bestIterate_of_iterate hstart (.start hbegins) hiterate
    exact ⟨k, rfl,
      { hbest with
        count_le := (le_of_iterate hiterate).trans_eq (Nat.zero_add _)
        complete := fun j hj v norm hv =>
          hv.le_of_iterate hstart hiterate (hj.trans_eq (Nat.zero_add _).symm) }⟩

end Result

section Runs

variable {n : Nat} (hfits : q.Fits n) (hq : q.Oblivious n)

include hfits hq

/-- A residual that was measured once is found again, whatever the scratch space holds. -/
theorem Measured.exists_trueResidual {work : Scratch α} {norm : α} (h : Measured q x work norm)
    (hx : x.size = n) (hw : w.Sized n) : ∃ w', trueResidual q x w = .ok (w', norm) := by
  obtain ⟨before, htrue⟩ := h
  obtain ⟨image, r, himage, hr, -, rfl⟩ := trueResidual_eq_ok.1 htrue
  obtain ⟨hrhs, hsize, rfl⟩ := Vec.waxpby_eq_ok.1 hr
  have hr : before.r.size = n := hrhs.trans hfits.size_rhs
  have himageSize : before.image.size = n :=
    (hfits.size_op himage).symm.trans (hsize.symm.trans hr)
  refine ⟨_, trueResidual_eq_ok.2 ⟨image, _, ?_, Vec.waxpby_eq_ok.2 ⟨?_, ?_, rfl⟩, rfl, rfl⟩⟩
  · exact (hq.op_eq hw.size_image himageSize hx).trans himage
  · exact hw.size_r.trans (hr.symm.trans hrhs)
  · exact hw.size_r.trans (hr.symm.trans hsize)

/-- **A run of an operator and a preconditioner that answer and overlook what they write over** is
    the same with all scratch space, and its result says what it has found. -/
theorem exists_run_spec [IsStrictOrder α (· < ·)] (hx : x.size = n) (maxIter : Nat) :
    ∃ result y, y.size = n ∧ result.iterations ≤ maxIter ∧
      (result.converged = true ↔ result.residual ≤ q.threshold) ∧
      ∀ w : Scratch α, w.Sized n →
        (∃ w', run q maxIter x w = .ok (result, y, w')) ∧
        (result.converged = true → ∃ w', trueResidual q y w = .ok (w', result.residual)) ∧
        (∀ w' norm, trueResidual q x w = .ok (w', norm) → norm ≤ q.threshold →
          result.iterations = 0 ∧ y = x) ∧
        (result.converged = false → ∃ count, result.iterations = count % UInt32.size ∧
          HandsBack q maxIter x w count y result.residual) := by
  have hnew : (Scratch.new n : Scratch α).Sized n := Scratch.sized_new n
  obtain ⟨result, y, w₀, hrun₀⟩ := hfits.exists_run hx hnew maxIter
  have hy := (sized_of_run hfits.toKeeps hx hnew hrun₀).1
  obtain ⟨hiff, hmeasured⟩ := converged_iff hrun₀
  refine ⟨result, y, hy, iterations_le_of_run hrun₀, hiff, fun w hw => ?_⟩
  obtain ⟨w', hrun⟩ := run_congr hq hfits.toKeeps hx hnew hw hrun₀
  exact ⟨⟨w', hrun⟩, fun hconverged => (hmeasured hconverged).exists_trueResidual hfits hq hy hw,
    fun _ _ htrue hnorm => start_of_run hrun htrue hnorm, handsBack_of_run hrun⟩

end Runs

/-! ## 5. Functions -/

section Functions

variable {n : Nat}

/-- The program that writes the value of a function over a vector. -/
def writing (f : Vector α n → Vector α n) (y v : Array α) : Checked (Array α) :=
  if hv : v.size = n then do
    Checked.require (y.size = n) .lengthMismatch
    pure (f ⟨v, hv⟩).toArray
  else .error .lengthMismatch

/-- The problem that functions of vectors pose. -/
def Problem.ofFunctions (op precond : Vector α n → Vector α n) (rhs : Vector α n) (threshold : α) :
    Problem α where
  op := writing op
  precond := writing precond
  rhs := rhs.toArray
  threshold := threshold

omit [Scalar α] in
theorem writing_eq_ok {f : Vector α n → Vector α n} {y v z : Array α} :
    writing f y v = .ok z ↔ ∃ hv : v.size = n, y.size = n ∧ (f ⟨v, hv⟩).toArray = z := by
  unfold writing
  split
  case isTrue hv =>
    simp [Checked.bind_eq_ok, Checked.require_eq_ok, hv]
  case isFalse hv =>
    simp [hv]

omit [Scalar α] in
theorem size_writing {f : Vector α n → Vector α n} {y v z : Array α} (h : writing f y v = .ok z) :
    z.size = y.size := by
  obtain ⟨hv, hy, rfl⟩ := writing_eq_ok.1 h
  rw [Vector.size_toArray, hy]

omit [Scalar α] in
theorem exists_writing (f : Vector α n → Vector α n) {y v : Array α} (hy : y.size = n)
    (hv : v.size = n) : ∃ z, writing f y v = .ok z := ⟨_, writing_eq_ok.2 ⟨hv, hy, rfl⟩⟩

omit [Scalar α] in
theorem writing_congr (f : Vector α n → Vector α n) {y y' : Array α} (v : Array α)
    (hy : y.size = n) (hy' : y'.size = n) : writing f y v = writing f y' v := by
  unfold writing
  rw [Checked.require_of _ _ hy, Checked.require_of _ _ hy']

variable (op precond : Vector α n → Vector α n) (rhs : Vector α n) (threshold : α)

omit [Scalar α] in
theorem fits_ofFunctions : (Problem.ofFunctions op precond rhs threshold).Fits n where
  size_op := size_writing
  size_precond := size_writing
  size_rhs := rhs.size_toArray
  exists_op := exists_writing op
  exists_precond := exists_writing precond

omit [Scalar α] in
theorem oblivious_ofFunctions : (Problem.ofFunctions op precond rhs threshold).Oblivious n where
  op_eq hy hy' _ := writing_congr op _ hy hy'
  precond_eq r hz hz' := writing_congr precond r hz hz'

/-- **The result of a run can be trusted, whatever the operator does.** For all functions `op` and
    `precond` of vectors, all starts and all scratch space the run answers with one result and one
    vector, within the iterations that it may make. It has converged if and only if the residual of
    the result is not above the threshold; then this is what computing the residual of the vector
    anew gives. A start that is good enough is handed back without an iteration. A run that has not
    converged hands back one of its iterates with the residual recorded for it, and none of its
    iterates has a smaller one; the result counts its iterations in 32 bits. -/
theorem run_trustworthy [IsStrictOrder α (· < ·)] (start : Vector α n) (maxIter : Nat) :
    ∃ (result : Result α) (y : Vector α n), result.iterations ≤ maxIter ∧
      (result.converged = true ↔ result.residual ≤ threshold) ∧
      ∀ w : Scratch α, w.Sized n →
        (∃ w', run (.ofFunctions op precond rhs threshold) maxIter start.toArray w =
          .ok (result, y.toArray, w')) ∧
        (result.converged = true →
          ∃ w', trueResidual (.ofFunctions op precond rhs threshold) y.toArray w =
            .ok (w', result.residual)) ∧
        (∀ w' norm, trueResidual (.ofFunctions op precond rhs threshold) start.toArray w =
            .ok (w', norm) → norm ≤ threshold → result.iterations = 0 ∧ y = start) ∧
        (result.converged = false → ∃ count, result.iterations = count % UInt32.size ∧
          HandsBack (.ofFunctions op precond rhs threshold) maxIter start.toArray w count
            y.toArray result.residual) := by
  obtain ⟨result, y, hy, hle, hiff, hrun⟩ := exists_run_spec
    (fits_ofFunctions op precond rhs threshold) (oblivious_ofFunctions op precond rhs threshold)
    start.size_toArray maxIter
  refine ⟨result, ⟨y, hy⟩, hle, hiff, fun w hw => ?_⟩
  obtain ⟨hanswer, hmeasured, hstart, hbest⟩ := hrun w hw
  exact ⟨hanswer, hmeasured, fun w' norm htrue hnorm =>
    ⟨(hstart w' norm htrue hnorm).1, Vector.toArray_inj.1 (hstart w' norm htrue hnorm).2⟩, hbest⟩

end Functions

/-- The cube of a number. -/
def cube (v : Vector Float 1) : Vector Float 1 := #v[v[0] * v[0] * v[0]]

/-- Three iterations for `v³ = 3` from `1`, in double precision. The first one comes to `1.5` and
    carries the residual `0`, but the true residual is recorded, and no other iterate has a smaller
    one. -/
theorem run_trustworthy_cube :
    ∃ w', run (.ofFunctions cube id #v[3] 0.1) 3 #[1] (Scratch.new 1) =
        .ok (⟨3, 0.375, false⟩, #[1.5], w') ∧
      BestIterate (.ofFunctions cube id #v[3] 0.1) #[1] (Scratch.new 1) 3 #[1.5] 0.375 := by
  have heval : (run (.ofFunctions cube id #v[3] 0.1) 3 #[1] (Scratch.new 1)).map (fun r =>
      decide (r.1.iterations = 3 ∧ r.1.residual = 0.375 ∧ r.1.converged = false ∧
        r.2.1 = #[1.5])) = .ok true := by
    decide +kernel
  obtain ⟨result, y, -, -, hrun⟩ := run_trustworthy cube id #v[3] 0.1 #v[1] 3
  obtain ⟨⟨w', hanswer⟩, -, -, hhands⟩ := hrun (Scratch.new 1) (Scratch.sized_new 1)
  obtain ⟨r, hr, heval⟩ := Checked.exists_of_map heval
  obtain ⟨hiterations, hresidual, hconverged, hy⟩ := of_decide_eq_true heval
  cases hanswer.symm.trans hr
  obtain ⟨k, residual, converged⟩ := result
  dsimp only at hiterations hresidual hconverged hy
  subst hiterations hresidual hconverged
  obtain ⟨count, hcount, hbest⟩ := hhands rfl
  have hle := hbest.count_le
  rw [Nat.mod_eq_of_lt (Nat.lt_of_le_of_lt hle (by decide))] at hcount
  dsimp only at hcount
  subst hcount
  rw [← hy]
  exact ⟨w', hanswer, hbest.toBestIterate⟩

end ConjugateGradient

end Quasidefinite

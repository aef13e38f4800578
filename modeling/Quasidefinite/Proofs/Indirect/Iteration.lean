import Quasidefinite.Indirect.ConjugateGradient
import Quasidefinite.Proofs.Vec

/-!
# Iterations of conjugate gradients

An iteration takes one of four branches, and `Iteration` says for each of them all that it
computes; a step answers if and only if it takes one of them (`step_eq_ok_iff`). Iterations keep the
lengths of all vectors if the operator and the preconditioner do (`Iteration.sized`), and they
answer as long as these do (`Problem.Fits.exists_step`). All of this holds in every arithmetic.

A run is characterised in the same way (`run_eq_ok_iff`); `Passes` says which states it comes to an
iteration in.
-/

namespace Quasidefinite

namespace ConjugateGradient

variable {α : Type} [Scalar α] {q : Problem α} {s t : Run α}

/-! ## 1. Branches -/

/-- The branches of an iteration. -/
inductive Branch
  /-- The operator is not positive along the direction of search. -/
  | brokenDown
  /-- The true residual confirms the end of the run. -/
  | converged
  /-- The true residual does not confirm the end, and the search starts again from it. -/
  | restarted
  /-- The search goes on in another direction. -/
  | turned
  deriving DecidableEq, Repr

/-- The iterate and its residual have moved along the direction of search, in which the operator
    is positive. -/
inductive Moved (q : Problem α) (s t : Run α) : Prop
  | intro (image : Array α) (curvature : α) (himage : q.op s.work.image s.work.p = .ok image)
      (hcurvature : Vec.dot s.work.p image = .ok curvature)
      (hpositive : Scalar.isPositiveFinite curvature = true)
      (hadvance :
        advance { s with work := { s.work with image } } (s.rz / curvature) = .ok t)

/-- **What an iteration does**, branch by branch. -/
inductive Iteration (q : Problem α) (s : Run α) : Branch → Progress α → Prop
  | brokenDown (image : Array α) (curvature : α)
      (himage : q.op s.work.image s.work.p = .ok image)
      (hcurvature : Vec.dot s.work.p image = .ok curvature)
      (hpositive : ¬ Scalar.isPositiveFinite curvature = true) :
      Iteration q s .brokenDown (.brokenDown { s with work := { s.work with image } })
  | converged (t : Run α) (work : Scratch α) (norm : α) (hmoved : Moved q s t)
      (hcarried : Vec.norm t.work.r ≤ q.threshold)
      (htrue : trueResidual q t.x t.work = .ok (work, norm)) (hnorm : norm ≤ q.threshold) :
      Iteration q s .converged (.converged { t with work, bestNorm := norm })
  | restarted (t u : Run α) (work work' : Scratch α) (norm rz : α) (hmoved : Moved q s t)
      (hcarried : Vec.norm t.work.r ≤ q.threshold)
      (htrue : trueResidual q t.x t.work = .ok (work, norm)) (hnorm : ¬ norm ≤ q.threshold)
      (hrestart : restart q work = .ok (work', rz))
      (hkeep : keepBest { t with work := work', rz } norm = .ok u) :
      Iteration q s .restarted (.running u)
  | turned (t u v : Run α) (hmoved : Moved q s t)
      (hcarried : ¬ Vec.norm t.work.r ≤ q.threshold)
      (hkeep : keepBest t (Vec.norm t.work.r) = .ok u) (hturn : turn q u = .ok v) :
      Iteration q s .turned (.running v)

/-- After a move, the norm of the residual carried along decides how the iteration ends. -/
theorem Moved.step_eq (h : Moved q s t) : step q s =
    if Vec.norm t.work.r ≤ q.threshold then confirm q t
    else do
      let u ← keepBest t (Vec.norm t.work.r)
      return .running (← turn q u) := by
  obtain ⟨image, curvature, himage, hcurvature, hpositive, hadvance⟩ := h
  rw [step, himage, Checked.ok_bind]
  dsimp only
  rw [hcurvature, Checked.ok_bind, if_pos hpositive, hadvance, Checked.ok_bind]

/-- A step that answers has moved, or it has broken down. -/
theorem moved_of_step {p : Progress α} (h : step q s = .ok p) :
    (∃ t, Moved q s t) ∨ Iteration q s .brokenDown p := by
  unfold step at h
  obtain ⟨image, himage, h⟩ := Checked.bind_eq_ok.1 h
  obtain ⟨curvature, hcurvature, h⟩ := Checked.bind_eq_ok.1 h
  split at h
  case isTrue hpositive =>
    obtain ⟨t, hadvance, -⟩ := Checked.bind_eq_ok.1 h
    exact .inl ⟨t, image, curvature, himage, hcurvature, hpositive, hadvance⟩
  case isFalse hpositive =>
    cases h
    exact .inr (.brokenDown image curvature himage hcurvature hpositive)

/-- The true residual confirms the end of the run, or the search starts again from it. -/
theorem Moved.of_confirm (hmoved : Moved q s t) (hcarried : Vec.norm t.work.r ≤ q.threshold)
    {p : Progress α} (h : confirm q t = .ok p) : ∃ branch, Iteration q s branch p := by
  unfold confirm at h
  obtain ⟨⟨work, norm⟩, htrue, h⟩ := Checked.bind_eq_ok.1 h
  dsimp only at h
  split at h
  case isTrue hnorm =>
    cases h
    exact ⟨_, .converged t work norm hmoved hcarried htrue hnorm⟩
  case isFalse hnorm =>
    obtain ⟨⟨work', rz⟩, hrestart, h⟩ := Checked.bind_eq_ok.1 h
    obtain ⟨u, hkeep, h⟩ := Checked.bind_eq_ok.1 h
    cases h
    exact ⟨_, .restarted t u work work' norm rz hmoved hcarried htrue hnorm hrestart hkeep⟩

/-- **A step answers if and only if it takes one of the branches.** -/
theorem step_eq_ok_iff {p : Progress α} :
    step q s = .ok p ↔ ∃ branch, Iteration q s branch p := by
  constructor
  · intro h
    obtain ⟨t, hmoved⟩ | hbroken := moved_of_step h
    · rw [hmoved.step_eq] at h
      split at h
      case isTrue hcarried => exact hmoved.of_confirm hcarried h
      case isFalse hcarried =>
        obtain ⟨u, hkeep, h⟩ := Checked.bind_eq_ok.1 h
        obtain ⟨v, hturn, h⟩ := Checked.bind_eq_ok.1 h
        cases h
        exact ⟨_, .turned t u v hmoved hcarried hkeep hturn⟩
    · exact ⟨_, hbroken⟩
  · rintro ⟨branch, h⟩
    cases h with
    | brokenDown image curvature himage hcurvature hpositive =>
      rw [step, himage, Checked.ok_bind]
      dsimp only
      rw [hcurvature, Checked.ok_bind, if_neg hpositive, Checked.pure_eq_ok]
    | converged t work norm hmoved hcarried htrue hnorm =>
      rw [hmoved.step_eq, if_pos hcarried, confirm, htrue, Checked.ok_bind]
      exact if_pos hnorm
    | restarted t u work work' norm rz hmoved hcarried htrue hnorm hrestart hkeep =>
      rw [hmoved.step_eq, if_pos hcarried, confirm, htrue, Checked.ok_bind]
      dsimp only
      rw [if_neg hnorm, hrestart, Checked.ok_bind]
      dsimp only
      rw [hkeep]
      rfl
    | turned t u v hmoved hcarried hkeep hturn =>
      rw [hmoved.step_eq, if_neg hcarried, hkeep, Checked.ok_bind, hturn]
      rfl

/-! ## 2. Pieces of an iteration -/

theorem keepBest_eq_ok {norm : α} : keepBest s norm = .ok t ↔
    norm < s.bestNorm ∧ s.work.best.size = s.x.size ∧
      t = { s with bestNorm := norm, work := { s.work with best := s.x } } ∨
    ¬ norm < s.bestNorm ∧ t = s := by
  unfold keepBest
  by_cases hnorm : norm < s.bestNorm
  · rw [if_pos hnorm, Checked.bind_eq_ok]
    constructor
    · rintro ⟨best, hcopy, h⟩
      obtain ⟨hsize, rfl⟩ := Vec.copy_eq_ok.1 hcopy
      cases h
      exact .inl ⟨hnorm, hsize, rfl⟩
    · rintro (⟨-, hsize, rfl⟩ | ⟨hnot, -⟩)
      · exact ⟨_, Vec.copy_eq_ok.2 ⟨hsize, rfl⟩, rfl⟩
      · exact absurd hnorm hnot
  · rw [if_neg hnorm]
    simp [hnorm, eq_comm]

theorem trueResidual_eq_ok {x : Array α} {w w' : Scratch α} {norm : α} :
    trueResidual q x w = .ok (w', norm) ↔ ∃ image r, q.op w.image x = .ok image ∧
      Vec.waxpby w.r 1 q.rhs (-1) image = .ok r ∧ w' = { w with r, image } ∧
      norm = Vec.norm r := by
  unfold trueResidual
  simp only [Checked.bind_eq_ok, Checked.pure_eq_ok, Except.ok.injEq, Prod.mk.injEq]
  constructor
  · rintro ⟨image, himage, r, hr, rfl, rfl⟩
    exact ⟨image, r, himage, hr, rfl, rfl⟩
  · rintro ⟨image, r, himage, hr, rfl, rfl⟩
    exact ⟨image, himage, r, hr, rfl, rfl⟩

theorem restart_eq_ok {w w' : Scratch α} {rz : α} :
    restart q w = .ok (w', rz) ↔ ∃ z, q.precond w.z w.r = .ok z ∧ w.p.size = z.size ∧
      Vec.dot w.r z = .ok rz ∧ w' = { w with z, p := z } := by
  unfold restart
  simp only [Checked.bind_eq_ok, Checked.pure_eq_ok, Except.ok.injEq, Prod.mk.injEq,
    Vec.copy_eq_ok]
  constructor
  · rintro ⟨z, hz, p, ⟨hsize, rfl⟩, rz, hrz, rfl, rfl⟩
    exact ⟨_, hz, hsize, hrz, rfl⟩
  · rintro ⟨z, hz, hsize, hrz, rfl⟩
    exact ⟨z, hz, z, ⟨hsize, rfl⟩, rz, hrz, rfl, rfl⟩

theorem turn_eq_ok : turn q s = .ok t ↔ ∃ z rz p, q.precond s.work.z s.work.r = .ok z ∧
    Vec.dot s.work.r z = .ok rz ∧ Vec.axpby s.work.p 1 z (rz / s.rz) = .ok p ∧
    t = { s with rz, work := { s.work with z, p } } := by
  unfold turn
  simp only [Checked.bind_eq_ok, Checked.pure_eq_ok, Except.ok.injEq]
  constructor
  · rintro ⟨z, hz, rz, hrz, p, hp, rfl⟩
    exact ⟨z, rz, p, hz, hrz, hp, rfl⟩
  · rintro ⟨z, rz, p, hz, hrz, hp, rfl⟩
    exact ⟨z, hz, rz, hrz, p, hp, rfl⟩

theorem advance_eq_ok {step : α} : advance s step = .ok t ↔
    ∃ x r, Vec.axpby s.x step s.work.p 1 = .ok x ∧
      Vec.axpby s.work.r (-step) s.work.image 1 = .ok r ∧
      t = { s with x, work := { s.work with r } } := by
  unfold advance
  simp only [Checked.bind_eq_ok, Checked.pure_eq_ok, Except.ok.injEq]
  constructor
  · rintro ⟨x, hx, r, hr, rfl⟩
    exact ⟨x, r, hx, hr, rfl⟩
  · rintro ⟨x, r, hx, hr, rfl⟩
    exact ⟨x, hx, r, hr, rfl⟩

/-! ## 3. Runs -/

/-- The run from `x` comes to its first iteration in this state. -/
inductive Begins (q : Problem α) (x : Array α) (w : Scratch α) : Run α → Prop
  | intro (w' w'' : Scratch α) (norm rz : α) (htrue : trueResidual q x w = .ok (w', norm))
      (hnorm : ¬ norm ≤ q.threshold) (hbest : w'.best.size = x.size)
      (hrestart : restart q { w' with best := x } = .ok (w'', rz)) :
      Begins q x w { x, work := w'', rz, bestNorm := norm }

/-- **The run from `x` comes to an iteration in this state**, unless the number of iterations that
    it may make is exhausted before. -/
inductive Passes (q : Problem α) (x : Array α) (w : Scratch α) : Run α → Prop
  | start (s : Run α) (h : Begins q x w s) : Passes q x w s
  | next (s t : Run α) (h : Passes q x w s) (hstep : step q s = .ok (.running t)) :
      Passes q x w t

/-- The vector that a run hands back at its end. -/
def Run.outcome (s : Run α) (converged : Bool) : Array α :=
  if converged then s.x else s.work.best

/-- **A run answers** if the start is good enough, or if its iterations answer. -/
theorem run_eq_ok_iff {maxIter : Nat} {x x' : Array α} {w w' : Scratch α} {result : Result α} :
    run q maxIter x w = .ok (result, x', w') ↔
      (∃ norm, trueResidual q x w = .ok (w', norm) ∧ norm ≤ q.threshold ∧ x' = x ∧
        result = { iterations := 0, residual := norm, converged := true }) ∨
      ∃ s k t converged, Begins q x w s ∧ iterate q maxIter 0 s = .ok (k, t, converged) ∧
        (converged = false → t.x.size = t.work.best.size) ∧ x' = t.outcome converged ∧
        w' = t.work ∧ result =
          { iterations := k % UInt32.size, residual := t.bestNorm, converged } := by
  unfold run
  constructor
  · intro h
    obtain ⟨⟨w₁, norm⟩, htrue, h⟩ := Checked.bind_eq_ok.1 h
    dsimp only at h
    split at h
    case isTrue hnorm =>
      cases h
      exact .inl ⟨norm, htrue, hnorm, rfl, rfl⟩
    case isFalse hnorm =>
      obtain ⟨best, hcopy, h⟩ := Checked.bind_eq_ok.1 h
      obtain ⟨hbest, rfl⟩ := Vec.copy_eq_ok.1 hcopy
      obtain ⟨⟨w₂, rz⟩, hrestart, h⟩ := Checked.bind_eq_ok.1 h
      obtain ⟨⟨k, t, converged⟩, hiterate, h⟩ := Checked.bind_eq_ok.1 h
      refine .inr ⟨_, k, t, converged, ⟨w₁, w₂, norm, rz, htrue, hnorm, hbest, hrestart⟩,
        hiterate, ?_⟩
      cases converged with
      | true =>
        cases h
        exact ⟨by rintro ⟨⟩, rfl, rfl, rfl⟩
      | false =>
        obtain ⟨best, hcopy, h⟩ := Checked.bind_eq_ok.1 h
        obtain ⟨hsize, rfl⟩ := Vec.copy_eq_ok.1 hcopy
        cases h
        exact ⟨fun _ => hsize, rfl, rfl, rfl⟩
  · rintro (⟨norm, htrue, hnorm, rfl, rfl⟩ |
      ⟨s, k, t, converged, ⟨w₁, w₂, norm, rz, htrue, hnorm, hbest, hrestart⟩, hiterate, hsize, rfl,
        rfl, rfl⟩)
    · rw [htrue, Checked.ok_bind]
      exact if_pos hnorm
    · rw [htrue, Checked.ok_bind]
      dsimp only
      rw [if_neg hnorm, Vec.copy_eq_ok.2 ⟨hbest, rfl⟩, Checked.ok_bind, hrestart, Checked.ok_bind]
      dsimp only
      rw [hiterate, Checked.ok_bind]
      cases converged with
      | true => rfl
      | false =>
        dsimp only
        rw [if_neg Bool.false_ne_true, Vec.copy_eq_ok.2 ⟨hsize rfl, rfl⟩]
        rfl

/-! ## 4. Lengths -/

/-- The vectors of the scratch space have length `n`. -/
structure Scratch.Sized (n : Nat) (w : Scratch α) : Prop where
  size_r : w.r.size = n
  size_z : w.z.size = n
  size_p : w.p.size = n
  size_image : w.image.size = n
  size_best : w.best.size = n

/-- The vectors of a run have length `n`. -/
structure Run.Sized (n : Nat) (s : Run α) : Prop where
  size_x : s.x.size = n
  work : s.work.Sized n

theorem Scratch.sized_new (n : Nat) : (Scratch.new n : Scratch α).Sized n := by
  constructor <;> exact Vec.size_zeros n

/-- The operator and the preconditioner keep the length of the vector they write over. -/
structure Problem.Keeps (q : Problem α) : Prop where
  size_op : ∀ {y v z}, q.op y v = .ok z → z.size = y.size
  size_precond : ∀ {z r y}, q.precond z r = .ok y → y.size = z.size

/-- The state that an iteration leads to. -/
def Progress.state : Progress α → Run α
  | .running s => s
  | .brokenDown s => s
  | .converged s => s

section Sized

variable {n : Nat} (hq : q.Keeps)

include hq

theorem sized_of_trueResidual {x : Array α} {w w' : Scratch α} {norm : α} (hw : w.Sized n)
    (h : trueResidual q x w = .ok (w', norm)) : w'.Sized n := by
  obtain ⟨image, r, himage, hr, rfl, -⟩ := trueResidual_eq_ok.1 h
  exact { hw with
    size_r := (Vec.size_waxpby hr).trans hw.size_r
    size_image := (hq.size_op himage).trans hw.size_image }

theorem sized_of_restart {w w' : Scratch α} {rz : α} (hw : w.Sized n)
    (h : restart q w = .ok (w', rz)) : w'.Sized n := by
  obtain ⟨z, hz, hsize, -, rfl⟩ := restart_eq_ok.1 h
  exact { hw with
    size_z := (hq.size_precond hz).trans hw.size_z
    size_p := hsize.symm.trans hw.size_p }

omit hq in
theorem sized_of_keepBest {norm : α} (hs : s.Sized n) (h : keepBest s norm = .ok t) :
    t.Sized n := by
  rcases keepBest_eq_ok.1 h with ⟨-, -, rfl⟩ | ⟨-, rfl⟩
  · exact ⟨hs.size_x, { hs.work with size_best := hs.size_x }⟩
  · exact hs

theorem sized_of_turn (hs : s.Sized n) (h : turn q s = .ok t) : t.Sized n := by
  obtain ⟨z, rz, p, hz, -, hp, rfl⟩ := turn_eq_ok.1 h
  exact ⟨hs.size_x, { hs.work with
    size_z := (hq.size_precond hz).trans hs.work.size_z
    size_p := (Vec.size_axpby hp).trans hs.work.size_p }⟩

theorem Moved.sized (h : Moved q s t) (hs : s.Sized n) : t.Sized n := by
  obtain ⟨image, curvature, himage, -, -, hadvance⟩ := h
  obtain ⟨x, r, hx, hr, rfl⟩ := advance_eq_ok.1 hadvance
  exact ⟨(Vec.size_axpby hx).trans hs.size_x, { hs.work with
    size_r := (Vec.size_axpby hr).trans hs.work.size_r
    size_image := (hq.size_op himage).trans hs.work.size_image }⟩

/-- **An iteration keeps the lengths of all vectors.** -/
theorem Iteration.sized {branch : Branch} {p : Progress α} (h : Iteration q s branch p)
    (hs : s.Sized n) : p.state.Sized n := by
  cases h with
  | brokenDown image curvature himage hcurvature hpositive =>
    exact ⟨hs.size_x, { hs.work with
      size_image := (hq.size_op himage).trans hs.work.size_image }⟩
  | converged t work norm hmoved hcarried htrue hnorm =>
    have ht := hmoved.sized hq hs
    exact ⟨ht.size_x, sized_of_trueResidual hq ht.work htrue⟩
  | restarted t u work work' norm rz hmoved hcarried htrue hnorm hrestart hkeep =>
    have ht := hmoved.sized hq hs
    have hwork := sized_of_restart hq (sized_of_trueResidual hq ht.work htrue) hrestart
    exact sized_of_keepBest (s := { t with work := work', rz }) ⟨ht.size_x, hwork⟩ hkeep
  | turned t u v hmoved hcarried hkeep hturn =>
    exact sized_of_turn hq (sized_of_keepBest (hmoved.sized hq hs) hkeep) hturn

theorem Begins.sized {x : Array α} {w : Scratch α} (h : Begins q x w s) (hx : x.size = n)
    (hw : w.Sized n) : s.Sized n := by
  obtain ⟨w₁, w₂, norm, rz, htrue, -, -, hrestart⟩ := h
  have hw₁ := sized_of_trueResidual hq hw htrue
  exact ⟨hx, sized_of_restart hq (w := { w₁ with best := x }) { hw₁ with size_best := hx }
    hrestart⟩

theorem sized_of_iterate {count done k : Nat} {converged : Bool} (hs : s.Sized n)
    (h : iterate q count done s = .ok (k, t, converged)) : t.Sized n := by
  induction count generalizing done s with
  | zero =>
    cases h
    exact hs
  | succ count ih =>
    rw [iterate] at h
    obtain ⟨p, hp, h⟩ := Checked.bind_eq_ok.1 h
    obtain ⟨branch, hbranch⟩ := step_eq_ok_iff.1 hp
    have hstate := hbranch.sized hq hs
    cases p with
    | running u => exact ih hstate h
    | brokenDown u =>
      cases h
      exact hstate
    | converged u =>
      cases h
      exact hstate

/-- **A run keeps the lengths of all vectors.** -/
theorem sized_of_run {maxIter : Nat} {x x' : Array α} {w w' : Scratch α} {result : Result α}
    (hx : x.size = n) (hw : w.Sized n)
    (h : run q maxIter x w = .ok (result, x', w')) : x'.size = n ∧ w'.Sized n := by
  rcases run_eq_ok_iff.1 h with ⟨norm, htrue, -, rfl, -⟩ |
    ⟨s, k, t, converged, hbegins, hiterate, -, rfl, rfl, -⟩
  · exact ⟨hx, sized_of_trueResidual hq hw htrue⟩
  · have ht := sized_of_iterate hq (hbegins.sized hq hx hw) hiterate
    refine ⟨?_, ht.work⟩
    unfold Run.outcome
    split
    · exact ht.size_x
    · exact ht.work.size_best

end Sized

/-! ## 5. Totality -/

/-- The operator and the preconditioner answer on vectors of length `n`. -/
structure Problem.Fits (q : Problem α) (n : Nat) : Prop extends q.Keeps where
  size_rhs : q.rhs.size = n
  exists_op : ∀ {y v : Array α}, y.size = n → v.size = n → ∃ z, q.op y v = .ok z
  exists_precond : ∀ {z r : Array α}, z.size = n → r.size = n → ∃ y, q.precond z r = .ok y

section Total

variable {n : Nat} (hq : q.Fits n)

theorem exists_axpby {x v : Array α} (a b : α) (hx : x.size = n) (hv : v.size = n) :
    ∃ y, Vec.axpby x a v b = .ok y := ⟨_, Vec.axpby_eq_ok.2 ⟨hx.trans hv.symm, rfl⟩⟩

theorem exists_dot {x y : Array α} (hx : x.size = n) (hy : y.size = n) :
    ∃ s, Vec.dot x y = .ok s := ⟨_, Vec.dot_eq_ok.2 ⟨hx.trans hy.symm, rfl⟩⟩

theorem exists_keepBest (hs : s.Sized n) (norm : α) : ∃ t, keepBest s norm = .ok t := by
  by_cases hnorm : norm < s.bestNorm
  · exact ⟨_, keepBest_eq_ok.2 (.inl ⟨hnorm, hs.work.size_best.trans hs.size_x.symm, rfl⟩)⟩
  · exact ⟨_, keepBest_eq_ok.2 (.inr ⟨hnorm, rfl⟩)⟩

include hq

theorem Problem.Fits.exists_trueResidual {x : Array α} {w : Scratch α} (hx : x.size = n)
    (hw : w.Sized n) : ∃ w' norm, trueResidual q x w = .ok (w', norm) := by
  obtain ⟨image, himage⟩ := hq.exists_op hw.size_image hx
  have hsize := (hq.size_op himage).trans hw.size_image
  exact ⟨_, _, trueResidual_eq_ok.2 ⟨image, _, himage, Vec.waxpby_eq_ok.2
    ⟨hw.size_r.trans hq.size_rhs.symm, hw.size_r.trans hsize.symm, rfl⟩, rfl, rfl⟩⟩

theorem Problem.Fits.exists_restart {w : Scratch α} (hw : w.Sized n) :
    ∃ w' rz, restart q w = .ok (w', rz) := by
  obtain ⟨z, hz⟩ := hq.exists_precond hw.size_z hw.size_r
  have hsize := (hq.size_precond hz).trans hw.size_z
  obtain ⟨rz, hrz⟩ := exists_dot hw.size_r hsize
  exact ⟨_, rz, restart_eq_ok.2 ⟨z, hz, hw.size_p.trans hsize.symm, hrz, rfl⟩⟩

/-- Where the first residual is above the threshold, the iterations begin. -/
theorem Problem.Fits.exists_begins {x : Array α} {w w₁ : Scratch α} {norm : α} (hx : x.size = n)
    (hw : w.Sized n) (htrue : trueResidual q x w = .ok (w₁, norm)) (hnorm : ¬ norm ≤ q.threshold) :
    ∃ t, Begins q x w t := by
  have hw₁ := sized_of_trueResidual hq.toKeeps hw htrue
  obtain ⟨w₂, rz, hrestart⟩ := hq.exists_restart (w := { w₁ with best := x })
    { hw₁ with size_best := hx }
  exact ⟨_, w₁, w₂, norm, rz, htrue, hnorm, hw₁.size_best.trans hx.symm, hrestart⟩

theorem Problem.Fits.exists_turn (hs : s.Sized n) : ∃ t, turn q s = .ok t := by
  obtain ⟨z, hz⟩ := hq.exists_precond hs.work.size_z hs.work.size_r
  have hsize := (hq.size_precond hz).trans hs.work.size_z
  obtain ⟨rz, hrz⟩ := exists_dot hs.work.size_r hsize
  obtain ⟨p, hp⟩ := exists_axpby 1 (rz / s.rz) hs.work.size_p hsize
  exact ⟨_, turn_eq_ok.2 ⟨z, rz, p, hz, hrz, hp, rfl⟩⟩

/-- **An iteration answers.** -/
theorem Problem.Fits.exists_step (hs : s.Sized n) :
    ∃ branch p, step q s = .ok p ∧ Iteration q s branch p := by
  suffices h : ∃ branch p, Iteration q s branch p by
    obtain ⟨branch, p, h⟩ := h
    exact ⟨branch, p, step_eq_ok_iff.2 ⟨branch, h⟩, h⟩
  obtain ⟨image, himage⟩ := hq.exists_op hs.work.size_image hs.work.size_p
  have hsize := (hq.size_op himage).trans hs.work.size_image
  obtain ⟨curvature, hcurvature⟩ := exists_dot hs.work.size_p hsize
  by_cases hpositive : Scalar.isPositiveFinite curvature = true
  · obtain ⟨x, hx⟩ := exists_axpby (s.rz / curvature) 1 hs.size_x hs.work.size_p
    obtain ⟨r, hr⟩ := exists_axpby (-(s.rz / curvature)) 1 hs.work.size_r hsize
    obtain ⟨t, hmoved⟩ : ∃ t, Moved q s t :=
      ⟨_, image, curvature, himage, hcurvature, hpositive, advance_eq_ok.2 ⟨x, r, hx, hr, rfl⟩⟩
    have ht := hmoved.sized hq.toKeeps hs
    by_cases hcarried : Vec.norm t.work.r ≤ q.threshold
    · obtain ⟨work, norm, htrue⟩ := hq.exists_trueResidual ht.size_x ht.work
      have hwork := sized_of_trueResidual hq.toKeeps ht.work htrue
      by_cases hnorm : norm ≤ q.threshold
      · exact ⟨_, _, .converged _ work norm hmoved hcarried htrue hnorm⟩
      · obtain ⟨work', rz, hrestart⟩ := hq.exists_restart hwork
        obtain ⟨u, hkeep⟩ := exists_keepBest (s := { t with work := work', rz })
          ⟨ht.size_x, sized_of_restart hq.toKeeps hwork hrestart⟩ norm
        exact ⟨_, _, .restarted _ u work work' norm rz hmoved hcarried htrue hnorm hrestart hkeep⟩
    · obtain ⟨u, hkeep⟩ := exists_keepBest ht (Vec.norm t.work.r)
      obtain ⟨v, hturn⟩ := hq.exists_turn (sized_of_keepBest ht hkeep)
      exact ⟨_, _, .turned _ u v hmoved hcarried hkeep hturn⟩
  · exact ⟨_, _, .brokenDown image curvature himage hcurvature hpositive⟩

end Total

end ConjugateGradient

end Quasidefinite

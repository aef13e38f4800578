import Quasidefinite.Direct.Refinement
import Quasidefinite.Proofs.Factor.Correct
import Quasidefinite.Proofs.Sparse.Symmetric
import Quasidefinite.Proofs.Vec

/-!
# What refinement keeps

What a step of the refinement can do is said once (`Refinement.Step`), and what every step keeps,
every run of steps keeps (`Refinement.run_keeps`).

Refinement answers in every arithmetic, and what holds of a solution and is kept by adding the
solution for its residual holds of the solution it ends with (`Factorization.Of.exists_refine`),
whatever the settings are and however many steps are taken. In exact arithmetic being a solution is
such a property (`Factorization.Correct.improve`).
-/

namespace Quasidefinite

/-! ## 1. Steps -/

section Total

variable {α : Type} [Scalar α]

namespace Refinement

variable {K : Sparse α} {b : Array α}

/-- The residual overwrites a vector of its length, whatever that held. -/
theorem residual_eq {e x r : Array α} (he : e.size = b.size)
    (hr : K.symv b x (-1) 1 = .ok r) : residual K b e x = .ok (r, Vec.normInf r) := by
  unfold residual Vec.copy
  rw [Checked.require_of _ _ he, Checked.ok_bind, Checked.pure_eq_ok, Checked.ok_bind, hr]
  rfl

/-- The contents of the vector that the residual overwrites do not matter. -/
theorem residual_congr {e e' : Array α} (he : e.size = e'.size) (x : Array α) :
    residual K b e x = residual K b e' x := by
  rw [residual, residual, Vec.copy, Vec.copy, he]

variable {settings : Settings α} {F : Factorization α} {normb : α} {s t : State α} {p : Progress α}

theorem residual_eq_ok {e x r : Array α} {norm : α} :
    residual K b e x = .ok (r, norm) ↔
      e.size = b.size ∧ K.symv b x (-1) 1 = .ok r ∧ norm = Vec.normInf r := by
  constructor
  · intro h
    obtain ⟨y, hy, h⟩ := Checked.bind_eq_ok.1 h
    obtain ⟨hsize, rfl⟩ := Vec.copy_eq_ok.1 hy
    obtain ⟨z, hz, h⟩ := Checked.bind_eq_ok.1 h
    cases h
    exact ⟨hsize, hz, rfl⟩
  · rintro ⟨hsize, hr, rfl⟩
    exact residual_eq hsize hr

/-- The solution that a step tries, and its residual. -/
structure Tried (K : Sparse α) (F : Factorization α) (b : Array α) (s : State α)
    (x e : Array α) : Prop where
  exists_correction : ∃ dx, F.solveInto s.x s.residual = .ok dx ∧ Vec.axpby dx 1 s.x 1 = .ok x
  size_residual : s.residual.size = b.size
  residual_eq : K.symv b x (-1) 1 = .ok e

/-- **What a step can do.** Refinement is finished; or the quotient of the residuals is below the
    ratio asked for, and the solution that was tried is dropped or kept; or it is not, and
    refinement goes on. -/
inductive Step (settings : Settings α) (K : Sparse α) (F : Factorization α) (b : Array α)
    (normb : α) (s : State α) : Progress α → Prop
  | finished (h : finished settings normb s.norm = true) : Step settings K F b normb s (.done s)
  | dropped (x e : Array α) (hgoing : Refinement.finished settings normb s.norm = false)
      (htried : Tried K F b s x e) (hshort : s.norm / Vec.normInf e < settings.refineStopRatio)
      (hworse : ¬ 1 < s.norm / Vec.normInf e) :
      Step settings K F b normb s (.done { s with residual := e, steps := s.steps + 1 })
  | kept (x e : Array α) (hgoing : Refinement.finished settings normb s.norm = false)
      (htried : Tried K F b s x e) (hshort : s.norm / Vec.normInf e < settings.refineStopRatio)
      (hbetter : 1 < s.norm / Vec.normInf e) :
      Step settings K F b normb s (.done ⟨x, e, Vec.normInf e, s.steps + 1⟩)
  | accepted (x e : Array α) (hgoing : Refinement.finished settings normb s.norm = false)
      (htried : Tried K F b s x e) (henough : ¬ s.norm / Vec.normInf e < settings.refineStopRatio) :
      Step settings K F b normb s (.running ⟨x, e, Vec.normInf e, s.steps + 1⟩)

theorem step_of_eq_ok (h : step settings K F b normb s = .ok p) :
    Step settings K F b normb s p := by
  unfold step at h
  by_cases hfinished : finished settings normb s.norm = true
  · rw [if_pos hfinished] at h
    cases h
    exact .finished hfinished
  rw [if_neg hfinished] at h
  obtain ⟨dx, hdx, h⟩ := Checked.bind_eq_ok.1 h
  obtain ⟨x, hx, h⟩ := Checked.bind_eq_ok.1 h
  obtain ⟨⟨e, norm⟩, hresidual, h⟩ := Checked.bind_eq_ok.1 h
  obtain ⟨hsize, he, rfl⟩ := residual_eq_ok.1 hresidual
  have hgoing := Bool.eq_false_of_not_eq_true hfinished
  have htried : Tried K F b s x e := ⟨⟨dx, hdx, hx⟩, hsize, he⟩
  dsimp only at h
  by_cases hshort : s.norm / Vec.normInf e < settings.refineStopRatio
  · rw [if_pos hshort] at h
    by_cases hbetter : 1 < s.norm / Vec.normInf e
    · rw [if_pos hbetter] at h
      cases h
      exact .kept x e hgoing htried hshort hbetter
    · rw [if_neg hbetter] at h
      cases h
      exact .dropped x e hgoing htried hshort hbetter
  · rw [if_neg hshort] at h
    cases h
    exact .accepted x e hgoing htried hshort

/-- The state that a step leads to. -/
def Progress.state : Progress α → State α
  | .running s => s
  | .done s => s

/-- **What every step keeps, every run keeps.** -/
theorem run_keeps (inv : State α → Prop)
    (hstep : ∀ (s : State α) (p : Progress α), inv s → Step settings K F b normb s p → inv p.state)
    (hs : inv s) {count : Nat} (h : run settings K F b normb count s = .ok t) : inv t := by
  induction count generalizing s with
  | zero =>
    cases h
    exact hs
  | succ count ih =>
    rw [run] at h
    obtain ⟨p, hp, h⟩ := Checked.bind_eq_ok.1 h
    have hnext := hstep s p hs (step_of_eq_ok hp)
    cases p with
    | running u => exact ih hnext h
    | done u =>
      cases h
      exact hnext

end Refinement

/-! ## 2. Every arithmetic -/

/-- The solve of a fitting right hand side answers. -/
theorem Factorization.Of.exists_solve_size {K : Sparse α} {opts : FactorOptions α}
    {F : Factorization α} (h : Of K opts F) {b : Array α} (hb : b.size = K.cols) :
    ∃ x, F.solve b = .ok x ∧ x.size = K.cols := by
  obtain ⟨label, hlabel, -⟩ := h.planOf.exists_labels
  obtain ⟨x, hx, hsize, -⟩ := h.exists_solve hlabel hb
  exact ⟨x, hx, hsize⟩

namespace Refinement

variable {K : Sparse α} {b : Array α} {F : Factorization α}

/-- Refinement can go on: the residual is that of the solution. -/
structure Going (K : Sparse α) (b : Array α) (inv : Array α → Prop) (s : State α) : Prop where
  size_x : s.x.size = K.cols
  size_residual : s.residual.size = K.cols
  residual_eq : K.symv b s.x (-1) 1 = .ok s.residual
  holds : inv s.x

/-- Refinement has ended. -/
structure Ended (K : Sparse α) (inv : Array α → Prop) (s : State α) : Prop where
  size_x : s.x.size = K.cols
  size_residual : s.residual.size = K.cols
  holds : inv s.x

theorem Going.ended {inv : Array α → Prop} {s : State α} (h : Going K b inv s) : Ended K inv s :=
  ⟨h.size_x, h.size_residual, h.holds⟩

/-- The property is kept by adding the solution for the residual. -/
def Improves (K : Sparse α) (F : Factorization α) (b : Array α) (inv : Array α → Prop) : Prop :=
  ∀ x e dx : Array α, x.size = K.cols → dx.size = K.cols → inv x → K.symv b x (-1) 1 = .ok e →
    F.solve e = .ok dx → inv (Array.zipWith (fun xi vi => 1 * vi + 1 * xi) dx x)

/-- What a step leads to. -/
def Leads (K : Sparse α) (b : Array α) (inv : Array α → Prop) : Progress α → Prop
  | .running s => Going K b inv s
  | .done s => Ended K inv s

variable {opts : FactorOptions α} {inv : Array α → Prop}

theorem exists_step (hF : Factorization.Of K opts F) (hb : b.size = K.cols)
    (himproves : Improves K F b inv) (settings : Settings α) (normb : α) {s : State α}
    (h : Going K b inv s) :
    ∃ p, step settings K F b normb s = .ok p ∧ Leads K b inv p := by
  unfold step
  by_cases hfinished : finished settings normb s.norm = true
  · rw [if_pos hfinished]
    exact ⟨_, rfl, h.ended⟩
  obtain ⟨dx, hdx, hsizedx⟩ := hF.exists_solve_size h.size_residual
  have hcopy : s.x.size = s.residual.size := h.size_x.trans h.size_residual.symm
  have hcandidate := himproves s.x s.residual dx h.size_x hsizedx h.holds h.residual_eq hdx
  have hsize : (Array.zipWith (fun xi vi => 1 * vi + 1 * xi) dx s.x).size = K.cols := by
    simp [hsizedx, h.size_x]
  obtain ⟨e, he, hsizee, -⟩ := hF.planOf.triangle.exists_symv hsize hb (-1) 1
  rw [if_neg hfinished, Factorization.solveInto, Vec.copy, Checked.require_of _ _ hcopy,
    Checked.ok_bind, Checked.pure_eq_ok, Checked.ok_bind, hdx, Checked.ok_bind, Vec.axpby,
    Checked.require_of _ _ (hsizedx.trans h.size_x.symm), Checked.ok_bind, Checked.pure_eq_ok,
    Checked.ok_bind, residual_eq (h.size_residual.trans hb.symm) he, Checked.ok_bind]
  dsimp only
  by_cases hstop : s.norm / Vec.normInf e < settings.refineStopRatio
  · rw [if_pos hstop]
    by_cases hkeep : 1 < s.norm / Vec.normInf e
    · rw [if_pos hkeep]
      exact ⟨_, rfl, hsize, hsizee, hcandidate⟩
    · rw [if_neg hkeep]
      exact ⟨_, rfl, h.size_x, hsizee, h.holds⟩
  · rw [if_neg hstop]
    exact ⟨_, rfl, hsize, hsizee, he, hcandidate⟩

theorem exists_run (hF : Factorization.Of K opts F) (hb : b.size = K.cols)
    (himproves : Improves K F b inv) (settings : Settings α) (normb : α) (count : Nat)
    {s : State α} (h : Going K b inv s) :
    ∃ t, run settings K F b normb count s = .ok t ∧ Ended K inv t := by
  induction count generalizing s with
  | zero => exact ⟨s, rfl, h.ended⟩
  | succ count ih =>
    obtain ⟨p, hp, hleads⟩ := exists_step hF hb himproves settings normb h
    rw [run, hp, Checked.ok_bind]
    cases p with
    | running t => exact ih hleads
    | done t => exact ⟨t, rfl, hleads⟩

end Refinement

open Refinement in
/-- **Refinement answers, and keeps what every improvement keeps.** -/
theorem Factorization.Of.exists_refine {K : Sparse α} {opts : FactorOptions α}
    {F : Factorization α} (hF : Of K opts F) {b e x : Array α} (hb : b.size = K.cols)
    (he : e.size = K.cols) (hx : x.size = K.cols) {inv : Array α → Prop}
    (himproves : Improves K F b inv) (hinv : inv x) (settings : Settings α) :
    ∃ r, F.refine settings K b e x = .ok r ∧ Ended K inv r := by
  obtain ⟨r, hr, hsize, -⟩ := hF.planOf.triangle.exists_symv hx hb (-1) 1
  unfold refine
  rw [residual_eq (he.trans hb.symm) hr, Checked.ok_bind]
  exact exists_run hF hb himproves settings _ _ ⟨hx, hsize, hr, hinv⟩

theorem Factorization.refine_congr (F : Factorization α) (settings : Settings α) (K : Sparse α)
    {b e e' : Array α} (he : e.size = e'.size) (x : Array α) :
    F.refine settings K b e x = F.refine settings K b e' x := by
  rw [refine, refine, Refinement.residual_congr he]

end Total

/-! ## 3. Exact arithmetic -/

section Exact

open scoped Scalar Matrix

variable {K : Type} [Field K] [LinearOrder K] [SquareRoot K] {A : Sparse K} {F : Factorization K}

/-- The residual of a vector. -/
theorem Sparse.Triangle.vector_symv (hA : A.Triangle) {x b e : Array K} (hx : x.size = A.cols)
    (hb : b.size = A.cols) (he : A.symv b x (-1) 1 = .ok e) : vector A.cols e =
      vector A.cols b - A.symmetricMatrix A.cols *ᵥ vector A.cols x := by
  obtain ⟨z, hz, -, heq⟩ := hA.exists_vector_symv hx hb (-1) 1
  obtain rfl : e = z := Except.ok.inj (he.symm.trans hz)
  rw [heq, neg_smul, one_smul, one_smul, neg_add_eq_sub]

/-- **Adding the solution for its residual to a solution gives a solution.** -/
theorem Factorization.Correct.improve (h : Correct A F) (hA : A.Triangle) {b : Array K}
    (hb : b.size = A.cols) : Refinement.Improves A F b
      fun x => A.symmetricMatrix A.cols *ᵥ vector A.cols x = vector A.cols b := by
  intro x e dx hx hdx hsolves he hsolve
  have hresidual := hA.vector_symv hx hb he
  rw [hsolves, sub_self] at hresidual
  obtain ⟨z, hz, hsize, heq⟩ := hA.exists_symv hx hb (-1) 1
  obtain rfl : e = z := Except.ok.inj (he.symm.trans hz)
  obtain ⟨y, hy, -, hsolves', -⟩ := h.solve_eq e hsize
  obtain rfl : dx = y := Except.ok.inj (hsolve.symm.trans hy)
  have hsum : vector A.cols (Array.zipWith (fun xi vi => 1 * vi + 1 * xi) dx x) =
      vector A.cols x + vector A.cols dx := by
    funext i
    have hi := i.isLt
    rw [vector, Pi.add_apply, vector, vector, getD_of_lt _ _ _ (by simp [hx, hdx]),
      getD_of_lt _ _ _ (hi.trans_eq hx.symm), getD_of_lt _ _ _ (hi.trans_eq hdx.symm)]
    simp
  rw [hsum, Matrix.mulVec_add, hsolves, hsolves', hresidual, add_zero]

end Exact

end Quasidefinite

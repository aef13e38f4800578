import Mathlib.LinearAlgebra.FiniteDimensional.Lemmas
import Mathlib.LinearAlgebra.Matrix.DotProduct
import Mathlib.Tactic.FieldSimp
import Mathlib.Tactic.LinearCombination
import Quasidefinite.Proofs.Indirect.Residual

/-!
# Conjugate directions

If the operator and the preconditioner are symmetric and positive definite, the residual is
orthogonal to all earlier directions of search, and the present direction is conjugate to them
(`Directions`). The earlier directions enter only through the space `W` that they span, which every
iteration enlarges (`Directions.next`, `Directions.finrank_lt`). As long as the residual is not zero
this space cannot be everything, so a run with as many iterations as there are variables converges
(`Problem.Denotes.converges`), and none of its iterations breaks down or starts the search again
(`Problem.Denotes.never_stalls`).
-/

namespace Quasidefinite

namespace ConjugateGradient

open scoped Scalar Matrix

variable {K : Type} [Field K] [LinearOrder K] {n : Nat} {M D : Matrix (Fin n) (Fin n) K}

/-! ## 1. One iteration -/

/-- **The residual `r` and the direction `p` after a search along the directions that span `W`.** -/
structure Directions (M D : Matrix (Fin n) (Fin n) K) (W : Submodule K (Fin n → K))
    (r p : Fin n → K) : Prop where
  orthogonal : ∀ w ∈ W, w ⬝ᵥ r = 0
  conjugate : ∀ w ∈ W, w ⬝ᵥ M *ᵥ p = 0
  image_mem : ∀ w ∈ W, D *ᵥ M *ᵥ w ∈ W ⊔ K ∙ p
  direction_mem : p - D *ᵥ r ∈ W

omit [LinearOrder K] in
theorem dotProduct_eq_zero_of_mem_sup {W : Submodule K (Fin n → K)} {p v : Fin n → K}
    (hW : ∀ w ∈ W, w ⬝ᵥ v = 0) (hp : p ⬝ᵥ v = 0) : ∀ w ∈ W ⊔ K ∙ p, w ⬝ᵥ v = 0 := by
  intro w hw
  obtain ⟨u, hu, u', hu', rfl⟩ := Submodule.mem_sup.1 hw
  obtain ⟨c, rfl⟩ := Submodule.mem_span_singleton.1 hu'
  rw [add_dotProduct, smul_dotProduct, hW u hu, hp, smul_zero, add_zero]

namespace Directions

variable {W : Submodule K (Fin n → K)} {r p : Fin n → K}

omit [LinearOrder K] in
/-- The search begins in the direction of the preconditioned residual. -/
theorem start (M D : Matrix (Fin n) (Fin n) K) (r : Fin n → K) :
    Directions M D ⊥ r (D *ᵥ r) where
  orthogonal w hw := by rw [(Submodule.mem_bot K).1 hw, zero_dotProduct]
  conjugate w hw := by rw [(Submodule.mem_bot K).1 hw, zero_dotProduct]
  image_mem w hw := by
    rw [(Submodule.mem_bot K).1 hw, Matrix.mulVec_zero, Matrix.mulVec_zero]
    exact Submodule.zero_mem _
  direction_mem := by
    rw [sub_self]
    exact Submodule.zero_mem _

section Definite

variable (hM : PositiveDefinite M) (hD : PositiveDefinite D) (h : Directions M D W r p)

include h

omit [LinearOrder K] in
/-- Along the direction of search the residual falls by what the preconditioner sees of it. -/
theorem dotProduct_direction : p ⬝ᵥ r = r ⬝ᵥ D *ᵥ r := by
  have horthogonal := h.orthogonal _ h.direction_mem
  rw [sub_dotProduct, sub_eq_zero] at horthogonal
  rw [horthogonal, dotProduct_comm]

include hD in
theorem direction_ne_zero (hr : r ≠ 0) : p ≠ 0 := by
  rintro rfl
  have := h.dotProduct_direction
  rw [zero_dotProduct] at this
  exact hD.ne_zero hr this.symm

include hM hD

theorem curvature_pos (hr : r ≠ 0) : 0 < p ⬝ᵥ M *ᵥ p := hM.pos p (h.direction_ne_zero hD hr)

/-- The direction of search is a new one. -/
theorem finrank_lt (hr : r ≠ 0) :
    Module.finrank K W < Module.finrank K (W ⊔ K ∙ p : Submodule K (Fin n → K)) := by
  refine Submodule.finrank_lt_finrank_of_lt (left_lt_sup.2 fun hle => ?_)
  have hp : p ∈ W := hle (Submodule.mem_span_singleton_self p)
  exact (h.curvature_pos hM hD hr).ne' (h.conjugate p hp)

/-- The next residual is orthogonal to all directions so far. -/
theorem orthogonal_next (hr : r ≠ 0) {r' : Fin n → K}
    (hr' : r' = r - (r ⬝ᵥ D *ᵥ r / (p ⬝ᵥ M *ᵥ p)) • M *ᵥ p) : ∀ w ∈ W ⊔ K ∙ p, w ⬝ᵥ r' = 0 := by
  refine dotProduct_eq_zero_of_mem_sup (fun w hw => ?_) ?_
  · rw [hr', dotProduct_sub, dotProduct_smul, h.orthogonal w hw, h.conjugate w hw, smul_zero,
      sub_zero]
  · rw [hr', dotProduct_sub, dotProduct_smul, h.dotProduct_direction, smul_eq_mul,
      div_mul_cancel₀ _ (h.curvature_pos hM hD hr).ne', sub_self]

/-- **An iteration keeps the residual orthogonal and the directions conjugate.** -/
theorem next (hr : r ≠ 0) {r' p' : Fin n → K}
    (hr' : r' = r - (r ⬝ᵥ D *ᵥ r / (p ⬝ᵥ M *ᵥ p)) • M *ᵥ p)
    (hp' : p' = D *ᵥ r' + (r' ⬝ᵥ D *ᵥ r' / (r ⬝ᵥ D *ᵥ r)) • p) :
    Directions M D (W ⊔ K ∙ p) r' p' := by
  have horthogonal := h.orthogonal_next hM hD hr hr'
  have hcurvature := (h.curvature_pos hM hD hr).ne'
  have hrz := hD.ne_zero hr
  set α := r ⬝ᵥ D *ᵥ r / (p ⬝ᵥ M *ᵥ p) with hα
  set β := r' ⬝ᵥ D *ᵥ r' / (r ⬝ᵥ D *ᵥ r) with hβ
  have hα₀ : α ≠ 0 := div_ne_zero hrz hcurvature
  have hmem : p ∈ W ⊔ K ∙ p := Submodule.mem_sup_right (Submodule.mem_span_singleton_self p)
  -- The preconditioned residual before the iteration is among the directions after it.
  have hbefore : D *ᵥ r ∈ W ⊔ K ∙ p := by
    have := Submodule.sub_mem _ hmem (Submodule.mem_sup_left h.direction_mem)
    rwa [sub_sub_cancel] at this
  have hafter : D *ᵥ r' = p' - β • p := by rw [hp', add_sub_cancel_right]
  have himage : α • D *ᵥ M *ᵥ p = D *ᵥ r - D *ᵥ r' := by
    rw [hr', Matrix.mulVec_sub, Matrix.mulVec_smul, sub_sub_cancel]
  refine ⟨horthogonal, dotProduct_eq_zero_of_mem_sup (fun w hw => ?_) ?_, fun w hw => ?_, ?_⟩
  · have hzero := horthogonal _ (h.image_mem w hw)
    rw [hp', Matrix.mulVec_add, Matrix.mulVec_smul, dotProduct_add, dotProduct_smul,
      h.conjugate w hw, smul_zero, add_zero, hM.dotProduct_mulVec_comm, hD.dotProduct_mulVec_comm,
      hzero]
  · have hdot := congrArg (· ⬝ᵥ r') himage
    simp only [smul_dotProduct, sub_dotProduct, smul_eq_mul] at hdot
    rw [horthogonal _ hbefore, zero_sub, dotProduct_comm (D *ᵥ r') r'] at hdot
    refine (mul_eq_zero.1 ?_).resolve_left hα₀
    rw [hp', Matrix.mulVec_add, Matrix.mulVec_smul, dotProduct_add, dotProduct_smul,
      hM.dotProduct_mulVec_comm p, hD.dotProduct_mulVec_comm, mul_add, hdot, smul_eq_mul, hβ, hα]
    field_simp
    ring
  · obtain ⟨u, hu, v, hv, rfl⟩ := Submodule.mem_sup.1 hw
    obtain ⟨c, rfl⟩ := Submodule.mem_span_singleton.1 hv
    have hp₀ : D *ᵥ M *ᵥ p ∈ W ⊔ K ∙ p ⊔ K ∙ p' := by
      rw [← inv_smul_smul₀ hα₀ (D *ᵥ M *ᵥ p), himage, hafter]
      refine Submodule.smul_mem _ _ (Submodule.sub_mem _ (Submodule.mem_sup_left hbefore)
        (Submodule.sub_mem _ (Submodule.mem_sup_right (Submodule.mem_span_singleton_self p'))
          (Submodule.smul_mem _ _ (Submodule.mem_sup_left hmem))))
    rw [Matrix.mulVec_add, Matrix.mulVec_add, Matrix.mulVec_smul, Matrix.mulVec_smul]
    exact Submodule.add_mem _ (Submodule.mem_sup_left (h.image_mem u hu))
      (Submodule.smul_mem _ c hp₀)
  · rw [hafter, sub_sub_cancel]
    exact Submodule.smul_mem _ _ hmem

end Definite

end Directions

/-! ## 2. Iterations -/

variable [IsStrictOrderedRing K] [SquareRoot K] {q : Problem K} {s t : Run K}

/-- **The state of a run for a definite operator after `done` iterations**: the residual is not
    zero, and the directions of search so far span as many dimensions. -/
structure Conjugate (q : Problem K) (M D : Matrix (Fin n) (Fin n) K) (done : Nat) (s : Run K) :
    Prop extends Tracks q M s where
  residual_ne_zero : vector n s.work.r ≠ 0
  rz_eq : s.rz = vector n s.work.r ⬝ᵥ D *ᵥ vector n s.work.r
  exists_directions : ∃ W : Submodule K (Fin n → K),
    Directions M D W (vector n s.work.r) (vector n s.work.p) ∧ done ≤ Module.finrank K W

omit [IsStrictOrderedRing K] in
theorem fields_of_keepBest {norm : K} (h : keepBest s norm = .ok t) :
    t.x = s.x ∧ t.work.r = s.work.r ∧ t.work.p = s.work.p ∧ t.rz = s.rz := by
  rcases keepBest_eq_ok.1 h with ⟨-, -, rfl⟩ | ⟨-, rfl⟩ <;> exact ⟨rfl, rfl, rfl, rfl⟩

/-- The iterations so far are fewer than the variables. -/
theorem Conjugate.done_lt {done : Nat} (h : Conjugate q M D done s) : done < n := by
  obtain ⟨W, hW, hdone⟩ := h.exists_directions
  have hne : W ≠ ⊤ := by
    rintro rfl
    exact h.residual_ne_zero (dotProduct_self_eq_zero.1 (hW.orthogonal _ Submodule.mem_top))
  have hlt := Submodule.finrank_lt hne
  rw [Module.finrank_fin_fun] at hlt
  exact hdone.trans_lt hlt

omit [IsStrictOrderedRing K] in
theorem Conjugate.rz_ne_zero {done : Nat} (hD : PositiveDefinite D)
    (h : Conjugate q M D done s) : s.rz ≠ 0 := by
  rw [h.rz_eq]
  exact hD.ne_zero h.residual_ne_zero

section Definite

variable [ExactRoot K] (hq : q.Denotes n M D) (hM : PositiveDefinite M) (hD : PositiveDefinite D)
  (hthreshold : 0 < q.threshold)

theorem ne_zero_of_not_le {c : K} (hc : 0 < c) {v : Fin n → K} (h : ¬ euclidean v ≤ c) :
    v ≠ 0 := by
  rintro rfl
  exact h (euclidean_zero.trans_le hc.le)

include hq hM hD hthreshold

/-- **An iteration converges or turns to another conjugate direction.** -/
theorem Iteration.conjugate {branch : Branch} {p : Progress K} (h : Iteration q s branch p)
    {done : Nat} (hs : Conjugate q M D done s) :
    (branch = .converged ∧ ∃ t, p = .converged t) ∨
      branch = .turned ∧ ∃ t, p = .running t ∧ Conjugate q M D (done + 1) t := by
  have hleads := h.leads hq hs.toTracks
  obtain ⟨W, hW, hdone⟩ := hs.exists_directions
  cases h with
  | brokenDown image curvature himage hcurvature hpositive =>
    have hsize := (hq.size_op himage).trans hs.work.size_image
    rw [Vec.dot_eq hs.work.size_p hsize, hq.op_eq hs.work.size_image hs.work.size_p himage]
      at hcurvature
    obtain rfl := Except.ok.inj hcurvature
    exact absurd (by simpa using hW.curvature_pos hM hD hs.residual_ne_zero) hpositive
  | converged t work norm hmoved hcarried htrue hnorm => exact .inl ⟨rfl, _, rfl⟩
  | restarted t u work work' norm rz hmoved hcarried htrue hnorm hrestart hkeep =>
    -- The true residual is the one carried, whose norm has passed the same test.
    have ht := hmoved.sized hq.toKeeps hs.toSized
    obtain ⟨-, heq, -⟩ := hq.vector_trueResidual ht.size_x ht.work htrue
    rw [Vec.norm_eq ht.work.size_r, hs.residual_of_moved hq hmoved, ← heq] at hcarried
    exact absurd hcarried hnorm
  | turned t u v hmoved hcarried hkeep hturn =>
    have ht := hmoved.sized hq.toKeeps hs.toSized
    have htravels := hq.travels hmoved hs.toSized
    obtain ⟨-, hur, hup, hurz⟩ := fields_of_keepBest hkeep
    have hturns := hq.turns hturn (sized_of_keepBest ht hkeep)
    rw [Vec.norm_eq ht.work.size_r] at hcarried
    have hr : vector n v.work.r = vector n s.work.r -
        (vector n s.work.r ⬝ᵥ D *ᵥ vector n s.work.r /
          (vector n s.work.p ⬝ᵥ M *ᵥ vector n s.work.p)) • M *ᵥ vector n s.work.p := by
      rw [hturns.r_eq, hur, htravels.r_eq, hs.rz_eq]
    have hrz : v.rz = vector n v.work.r ⬝ᵥ D *ᵥ vector n v.work.r := by
      rw [hturns.rz_eq, hturns.r_eq]
    have hp : vector n v.work.p = D *ᵥ vector n v.work.r +
        (vector n v.work.r ⬝ᵥ D *ᵥ vector n v.work.r /
          (vector n s.work.r ⬝ᵥ D *ᵥ vector n s.work.r)) • vector n s.work.p := by
      rw [hturns.p_eq, hrz, hurz, htravels.rz_eq, hs.rz_eq, hup, htravels.p_eq, hturns.r_eq]
    refine .inr ⟨rfl, v, rfl, hleads, ?_, hrz, _, hW.next hM hD hs.residual_ne_zero hr hp, ?_⟩
    · rw [hturns.r_eq, hur]
      exact ne_zero_of_not_le hthreshold hcarried
    · exact hdone.trans_lt (hW.finrank_lt hM hD hs.residual_ne_zero)

omit hM hD in
theorem Begins.conjugate {x : Array K} {w : Scratch K} (h : Begins q x w s) (hx : x.size = n)
    (hw : w.Sized n) : Conjugate q M D 0 s := by
  have htracks := h.tracks hq hx hw
  obtain ⟨w₁, w₂, norm, rz, htrue, hnorm, -, hrestart⟩ := h
  have hw₁ := sized_of_trueResidual hq.toKeeps hw htrue
  obtain ⟨hr, heq, -⟩ := hq.vector_trueResidual hx hw htrue
  obtain ⟨hp, hrz, hr', -⟩ := hq.vector_restart (w := { w₁ with best := x })
    { hw₁ with size_best := hx } hrestart
  have hresidual : vector n w₂.r = q.residual M x := by rw [hr', hr]
  refine ⟨htracks, ?_, hr'.symm ▸ hrz, ⊥, ?_, Nat.zero_le _⟩
  · show vector n w₂.r ≠ 0
    rw [hresidual]
    exact ne_zero_of_not_le hthreshold (heq ▸ hnorm)
  · show Directions M D ⊥ (vector n w₂.r) (vector n w₂.p)
    rw [hp, hr']
    exact .start M D _

/-! ## 3. Runs -/

theorem Conjugate.exists_iterate {done : Nat} (hs : Conjugate q M D done s) {count : Nat}
    (hcount : n ≤ done + count) :
    ∃ k t, iterate q count done s = .ok (k, t, true) ∧ k ≤ n := by
  induction count generalizing done s with
  | zero => exact absurd hs.done_lt (Nat.not_lt.2 hcount)
  | succ count ih =>
    obtain ⟨branch, p, hstep, hbranch⟩ := hq.exists_step hs.toSized
    rw [iterate, hstep, Checked.ok_bind]
    rcases hbranch.conjugate hq hM hD hthreshold hs with ⟨-, t, rfl⟩ | ⟨-, t, rfl, ht⟩
    · exact ⟨done + 1, t, rfl, hs.done_lt⟩
    · exact ih ht (by omega)

/-- **A run converges within as many iterations as there are variables.** -/
theorem Problem.Denotes.converges {x x' : Array K} {w w' : Scratch K} (hx : x.size = n)
    (hw : w.Sized n) {maxIter : Nat} (hmaxIter : n ≤ maxIter) {result : Result K}
    (h : run q maxIter x w = .ok (result, x', w')) :
    result.converged = true ∧ result.iterations ≤ n := by
  rcases run_eq_ok_iff.1 h with ⟨norm, -, -, -, rfl⟩ |
    ⟨s, k, t, converged, hbegins, hiterate, -, -, -, rfl⟩
  · exact ⟨rfl, Nat.zero_le n⟩
  · obtain ⟨k', t', hiterate', hk⟩ := (hbegins.conjugate hq hthreshold hx hw).exists_iterate hq
      hM hD hthreshold (hmaxIter.trans_eq (Nat.zero_add maxIter).symm)
    obtain ⟨rfl, -, rfl⟩ : k' = k ∧ t' = t ∧ true = converged := by
      simpa using hiterate'.symm.trans hiterate
    exact ⟨rfl, (Nat.mod_le _ _).trans hk⟩

theorem Passes.exists_conjugate {x : Array K} {w : Scratch K} (h : Passes q x w s)
    (hx : x.size = n) (hw : w.Sized n) : ∃ done, Conjugate q M D done s := by
  induction h with
  | start s h => exact ⟨0, h.conjugate hq hthreshold hx hw⟩
  | next s t _ hstep ih =>
    obtain ⟨done, hs⟩ := ih
    obtain ⟨branch, hbranch⟩ := step_eq_ok_iff.1 hstep
    rcases hbranch.conjugate hq hM hD hthreshold hs with ⟨-, u, hu⟩ | ⟨-, u, hu, ht⟩
    · cases hu
    · cases hu
      exact ⟨done + 1, ht⟩

/-- **No iteration of a run breaks down or starts the search again**, and no division is by
    zero. -/
theorem Problem.Denotes.never_stalls {x : Array K} {w : Scratch K} (hx : x.size = n)
    (hw : w.Sized n) (h : Passes q x w s) : s.rz ≠ 0 ∧ ∀ branch p, Iteration q s branch p →
      branch ≠ .brokenDown ∧ branch ≠ .restarted := by
  obtain ⟨done, hs⟩ := h.exists_conjugate hq hM hD hthreshold hx hw
  refine ⟨hs.rz_ne_zero hD, fun branch p hbranch => ?_⟩
  rcases hbranch.conjugate hq hM hD hthreshold hs with ⟨rfl, -⟩ | ⟨rfl, -⟩
  · exact ⟨by rintro ⟨⟩, by rintro ⟨⟩⟩
  · exact ⟨by rintro ⟨⟩, by rintro ⟨⟩⟩

end Definite

end ConjugateGradient

end Quasidefinite

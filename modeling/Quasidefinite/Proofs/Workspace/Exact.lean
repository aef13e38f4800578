import Quasidefinite.Proofs.Kkt.Dense
import Quasidefinite.Proofs.Workspace.Session

/-!
# Exact solves by the direct method

In exact arithmetic and without regularized pivots, usable factors are those of the current matrix,
so the solution they give is exact, and refinement keeps an exact solution exact. This holds in
every session, whatever was called before: the system solved is the one with the dual regularizer
accepted last.
-/

namespace Quasidefinite

open scoped Scalar Matrix

variable {K : Type} [Field K] [LinearOrder K] [SquareRoot K]

namespace DirectSystem

/-! ## 1. Solves of a system -/

theorem getD_negate (dual : Array K) {m : Nat} :
    ∀ i < m, (Vec.negate dual).getD i 0 = -dual.getD i 0 := by
  intro i _
  by_cases hi : i < dual.size <;> simp [Vec.negate, Array.getD, hi]

/-- The upper triangle is that of the quadratic term. -/
theorem Data.symmetricMatrix_eq {A P U : Sparse K} (h : Data A P U) :
    U.symmetricMatrix A.cols = P.symmetricMatrix A.cols := by
  rcases h.cases_upper with ⟨rfl, -⟩ | rfl
  · rfl
  · exact Sparse.symmetricMatrix_upperPart h.cols_eq

namespace Invariant

variable {ordering : FillOrdering} {A P U : Sparse K} {primal : K} {settings : Settings K}
  {dual : Array K} {s : DirectSystem K}
  (h : Invariant ordering A P U primal settings dual s)

include h

/-- Usable factors are those of the current matrix. -/
theorem correct (hreg : settings.regularize = false) (husable : s.usable = true) :
    Factorization.Correct s.kkt.matrix s.factorization := by
  obtain ⟨hholds, hverdict⟩ := h.usable_iff husable
  exact h.of.correct (h.assembled.distinct h.data.blocks) hreg (outcome_of_verdict hverdict) hholds

/-- **With usable factors a solve finds the one solution of the system.** -/
theorem exists_exact_solve (hreg : settings.regularize = false) (husable : s.usable = true)
    {S : Matrix (Fin A.cols) (Fin A.cols) K} (hS : P.Stores S) {b : Array K}
    (hb : b.size = A.rows + A.cols) :
    ∃ t z, s.solve b = .ok (t, z, .success) ∧ z.size = A.rows + A.cols ∧
      Kkt.system A S primal dual *ᵥ Kkt.blocks A z = Kkt.blocks A b ∧
      ∀ y, Kkt.system A S primal dual *ᵥ y = Kkt.blocks A b → y = Kkt.blocks A z := by
  have hcorrect := h.correct hreg husable
  have hcols : A.cols + A.rows = s.kkt.matrix.cols := by rw [h.cols_eq, Nat.add_comm]
  have hb' := hb.trans h.cols_eq.symm
  obtain ⟨x, hx, -, hsolves, hunique⟩ := hcorrect.solve_eq b hb'
  -- Refinement keeps the exact solution that it starts from.
  obtain ⟨r, hr, hended⟩ := h.exists_solveRefined hb (fun x =>
      s.kkt.matrix.symmetricMatrix s.kkt.matrix.cols *ᵥ vector s.kkt.matrix.cols x =
        vector s.kkt.matrix.cols b)
    (fun y hy => by
      rw [hx] at hy
      exact Except.ok.inj hy ▸ hsolves)
    (hcorrect.improve h.triangle hb')
  have hfinite : Vec.isFinite r.x = true := by simp [Vec.isFinite]
  have hsystem : Kkt.system A S primal dual =
      Kkt.system A (U.symmetricMatrix A.cols) primal dual := by
    rw [h.data.symmetricMatrix_eq, hS.symmetricMatrix_eq]
  rw [h.solve_of_usable husable hb hr, if_pos hfinite, hsystem]
  refine ⟨_, r.x, rfl, hended.size_x.trans h.cols_eq, ?_, fun y hy => ?_⟩
  · have hiff := h.assembled.mulVec_blocks_iff h.data.blocks (getD_negate dual) hcols r.x b
    exact hiff.1 hended.holds
  · refine h.assembled.eq_blocks h.data.blocks (getD_negate dual) hcols (fun y hy => ?_) hy
    rw [hunique y hy, hunique _ hended.holds]

end Invariant

end DirectSystem

/-! ## 2. Solves of a session -/

namespace Workspace

/-- **Direct solves are exact over whole runs.** After any calls, a solve with valid arguments
    while the factors are usable succeeds with the one solution of the system for the dual
    regularizer accepted last, whatever the settings of the refinement. -/
theorem solve_exact {ordering : FillOrdering} {A P : Sparse K}
    (hA : A.checkFormat.run = .ok (.ok ())) (hP : P.checkFormat.run = .ok (.ok ()))
    {S : Matrix (Fin A.cols) (Fin A.cols) K} (hS : P.Stores S) {reg : Regularization K}
    {settings : Settings K} (hmethod : settings.method = .direct)
    (hreg : settings.regularize = false) {w : Workspace K}
    (hnew : (new ordering A P reg settings).run = .ok (.ok w)) (calls : List (Call K)) :
    ∃ s, Session.run A P ⟨w, reg.dual⟩ calls = .ok s ∧ (s.workspace.usable = true →
      ∀ (b : Array K) (warm : Option (Array K)) (tol : K), b.size = A.rows + A.cols →
        (∀ x ∈ warm, x.size = A.rows + A.cols) → 0 < tol →
        ∃ t z, s.workspace.solve A P b warm tol = .ok (t, z, .success) ∧
          z.size = A.rows + A.cols ∧
          Kkt.system A S reg.primal s.dual *ᵥ Kkt.blocks A z = Kkt.blocks A b ∧
          ∀ y, Kkt.system A S reg.primal s.dual *ᵥ y = Kkt.blocks A b → y = Kkt.blocks A z) := by
  obtain ⟨U, -, hstart⟩ := Session.OfDirect.exists_of_new (Sparse.wellFormed_of_checkFormat hA)
    (Sparse.wellFormed_of_checkFormat hP) hmethod hnew
  obtain ⟨s, hrun, ⟨h, hwritten⟩⟩ := hstart.exists_run reg.isFinite_primal calls
  refine ⟨_, hrun, fun husable b warm tol hb hwarm htol => ?_⟩
  obtain rfl := hwritten husable
  obtain ⟨t, z, hsolve, hsize, hsolves, hunique⟩ := h.exists_exact_solve hreg husable hS hb
  have hvalid := h.validSolve_iff.2 ⟨hb, hwarm, by simpa using htol⟩
  exact ⟨_, z, h.workspace_solve_of_valid hvalid hsolve, hsize, hsolves, hunique⟩

/-- The small problem is solved exactly after an update, one that is refused, and a solve that is
    refused. -/
theorem solve_exact_sample : ∃ s t z,
    Session.run Sample.constraint Sample.quadratic ⟨Sample.workspace, #[3]⟩
      [.update #[2], .update #[-1], .solve #[1] none 1] = .ok s ∧ s.dual = #[2] ∧
    s.workspace.solve Sample.constraint Sample.quadratic #[1, 2, 3] none 1 =
      .ok (t, z, .success) ∧
    Kkt.system Sample.constraint (Sample.quadratic.matrix 2 2) (1 / 2) s.dual *ᵥ
      Kkt.blocks Sample.constraint z = Kkt.blocks Sample.constraint #[1, 2, 3] := by
  obtain ⟨s, hrun, hsolve⟩ := solve_exact Sample.constraint_ok Sample.quadratic_ok
    (.of_symm (by decide +kernel)) rfl rfl Sample.new_eq
    [.update #[2], .update #[-1], .solve #[1] none 1]
  have hreached : (Session.run Sample.constraint Sample.quadratic ⟨Sample.workspace, #[3]⟩
      [.update #[2], .update #[-1], .solve #[1] none 1]).map
        (fun s => (s.workspace.usable, s.dual)) = .ok (true, #[2]) := by
    decide +kernel
  have hs : (true, #[2]) = (s.workspace.usable, s.dual) := Except.ok.inj
    (hreached.symm.trans (congrArg (Except.map fun s => (s.workspace.usable, s.dual)) hrun))
  obtain ⟨husable, hdual⟩ := Prod.ext_iff.1 hs
  obtain ⟨t, z, hz, -, hsystem, -⟩ := hsolve husable.symm #[1, 2, 3] none 1 rfl (by simp) one_pos
  exact ⟨s, t, z, hrun, hdual.symm, hz, hsystem⟩

end Workspace

end Quasidefinite

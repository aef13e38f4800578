import Quasidefinite.Proofs.Factor.Inertia
import Quasidefinite.Proofs.Workspace.Exact

/-!
# Quasidefinite systems

If the quadratic term is positive semidefinite and the regularizers are positive, the system is
quasidefinite (`Kkt.system_quasidefinite`). Then no order of elimination meets a zero pivot, and as
many pivots are positive as there are variables, so every verdict on a factorization is favourable
(`DirectSystem.Invariant.verdict_eq_ok`): construction succeeds, and the factors stay usable.
-/

namespace Quasidefinite

open scoped Scalar Matrix

variable {K : Type} [Field K] [LinearOrder K] [IsStrictOrderedRing K] [SquareRoot K]

/-! ## 1. The quadratic form of the system -/

namespace Kkt

omit [IsStrictOrderedRing K] in
/-- The quadratic form of the system, negative on the constraints. -/
theorem system_form (A : Sparse K) (S : Matrix (Fin A.cols) (Fin A.cols) K) (primal : K)
    (dual : Array K) (x : Fin A.cols → K) (y : Fin A.rows → K) :
    Sum.elim x (-y) ⬝ᵥ system A S primal dual *ᵥ Sum.elim x y =
      primal * (x ⬝ᵥ x) + x ⬝ᵥ S *ᵥ x + ∑ i, vector A.rows dual i * (y i * y i) := by
  have hcross : x ⬝ᵥ (A.matrix A.rows A.cols)ᵀ *ᵥ y = y ⬝ᵥ A.matrix A.rows A.cols *ᵥ x := by
    rw [Matrix.mulVec_transpose, dotProduct_comm, ← Matrix.dotProduct_mulVec]
  have hdual : y ⬝ᵥ -Matrix.diagonal (vector A.rows dual) *ᵥ y =
      -∑ i, vector A.rows dual i * (y i * y i) := by
    rw [Matrix.neg_mulVec, dotProduct_neg, dotProduct]
    congr 1
    refine Finset.sum_congr rfl fun i _ => ?_
    rw [Matrix.mulVec_diagonal]
    ring
  unfold system
  rw [Matrix.fromBlocks_mulVec, Sum.elim_comp_inl, Sum.elim_comp_inr, sumElim_dotProduct_sumElim,
    Matrix.add_mulVec, Matrix.smul_mulVec, Matrix.one_mulVec, dotProduct_add, dotProduct_add,
    dotProduct_smul, hcross, neg_dotProduct, dotProduct_add, hdual, smul_eq_mul]
  ring

/-- **The system is quasidefinite.** -/
theorem system_form_pos {A : Sparse K} {S : Matrix (Fin A.cols) (Fin A.cols) K} {primal : K}
    {dual : Array K} (hS : ∀ x, 0 ≤ x ⬝ᵥ S *ᵥ x) (hprimal : 0 < primal)
    (hdual : ∀ i : Fin A.rows, 0 < vector A.rows dual i) {x : Fin A.cols → K} {y : Fin A.rows → K}
    (hne : Sum.elim x y ≠ 0) :
    0 < Sum.elim x (-y) ⬝ᵥ system A S primal dual *ᵥ Sum.elim x y := by
  rw [system_form]
  have hx : 0 ≤ x ⬝ᵥ x := Finset.sum_nonneg fun i _ => mul_self_nonneg (x i)
  have hy : ∀ i, 0 ≤ vector A.rows dual i * (y i * y i) := fun i =>
    mul_nonneg (hdual i).le (mul_self_nonneg (y i))
  have hsum : 0 ≤ ∑ i, vector A.rows dual i * (y i * y i) := Finset.sum_nonneg fun i _ => hy i
  by_cases hzero : x = 0
  · obtain ⟨i, hi⟩ : ∃ i, y i ≠ 0 := by
      by_contra hall
      push Not at hall
      exact hne (by rw [hzero, funext hall]; exact Sum.elim_zero_zero)
    have hpos : 0 < ∑ i, vector A.rows dual i * (y i * y i) :=
      Finset.sum_pos' (fun i _ => hy i)
        ⟨i, Finset.mem_univ i, mul_pos (hdual i) (mul_self_pos.2 hi)⟩
    have := hS x
    positivity
  · obtain ⟨i, hi⟩ := Function.ne_iff.1 hzero
    have hpos : 0 < x ⬝ᵥ x := Finset.sum_pos' (fun i _ => mul_self_nonneg (x i))
      ⟨i, Finset.mem_univ i, mul_self_pos.2 hi⟩
    have := hS x
    positivity

/-- The expected sign of a pivot: positive for the variables, negative for the constraints. -/
def sign (n i : Nat) : K := if i < n then 1 else -1

omit [SquareRoot K] in
theorem count_sign (n m : Nat) : Nat.count (fun i => 0 < (sign n i : K)) (n + m) = n := by
  have hleft : Nat.count (fun i => 0 < (sign n i : K)) n = n :=
    Nat.count_of_forall fun {i} hi => by simp [sign, hi]
  have hright : Nat.count (fun i => 0 < (sign n (n + i) : K)) m = 0 :=
    Nat.count_of_forall_not fun {i} _ => by simp [sign]
  rw [Nat.count_add, hleft, hright, Nat.add_zero]

omit [LinearOrder K] [IsStrictOrderedRing K] [SquareRoot K] in
theorem sum_range_number {m n size : Nat} (h : n + m = size) (g : Nat → K) :
    ∑ i ∈ Finset.range size, g i = ∑ u, g (number h u) := by
  rw [Finset.sum_range]
  exact (Equiv.sum_comp (number h) fun i => g i).symm

/-- **The assembled matrix is quasidefinite.** -/
theorem Assembled.isQuasidefinite {P A : Sparse K} (h : Blocks P A) {primal : K} {d : Nat → K}
    {M : Kkt K} (hM : Assembled P A (fun v => v + primal) d M) {dual : Array K}
    (hd : ∀ i < A.rows, d i = -dual.getD i 0)
    (hS : ∀ x, 0 ≤ x ⬝ᵥ P.symmetricMatrix A.cols *ᵥ x) (hprimal : 0 < primal)
    (hdual : ∀ i : Fin A.rows, 0 < vector A.rows dual i) {size : Nat}
    (hsize : A.cols + A.rows = size) :
    IsQuasidefinite size M.matrix.symmetric (sign A.cols) := by
  rintro x ⟨i, hi, hne⟩
  let y : Fin A.cols ⊕ Fin A.rows → K := fun u => x (number hsize u)
  have hy : y ≠ 0 := fun hzero => hne (by
    have := congrFun hzero ((number hsize).symm ⟨i, hi⟩)
    simpa [y] using this)
  have hrow : ∀ u, ∑ j ∈ Finset.range size, M.matrix.symmetric (number hsize u) j * x j =
      (system A (P.symmetricMatrix A.cols) primal dual *ᵥ y) u := by
    intro u
    rw [sum_range_number hsize, ← hM.submatrix_eq h hd hsize]
    rfl
  have hform := system_form_pos hS hprimal hdual (x := y ∘ Sum.inl) (y := y ∘ Sum.inr)
    (by rwa [Sum.elim_comp_inl_inr])
  rw [Sum.elim_comp_inl_inr] at hform
  refine hform.trans_eq ?_
  rw [sum_range_number hsize, dotProduct]
  refine Finset.sum_congr rfl fun u _ => ?_
  rw [hrow u]
  cases u <;> simp [sign, y]

end Kkt

/-! ## 2. Verdicts -/

namespace DirectSystem.Invariant

variable {ordering : FillOrdering} {A P U : Sparse K} {primal : K} {settings : Settings K}
  {dual : Array K} {s : DirectSystem K}

/-- **The verdict on a quasidefinite system is favourable.** -/
theorem verdict_eq_ok (h : Invariant ordering A P U primal settings dual s)
    (hreg : settings.regularize = false) {S : Matrix (Fin A.cols) (Fin A.cols) K}
    (hS : P.Stores S) (hsemidefinite : ∀ x, 0 ≤ x ⬝ᵥ S *ᵥ x) (hprimal : 0 < primal)
    (hdual : ∀ i : Fin A.rows, 0 < vector A.rows dual i) (hholds : s.factorization.Holds) :
    verdict s.factorization A.cols = .ok () := by
  have hcols : A.cols + A.rows = s.kkt.matrix.cols := by rw [h.cols_eq, Nat.add_comm]
  have hquasi := h.assembled.isQuasidefinite h.data.blocks (getD_negate dual) (by
    rwa [h.data.symmetricMatrix_eq, hS.symmetricMatrix_eq]) hprimal hdual hcols
  obtain ⟨houtcome, hpositive⟩ :=
    h.of.quasidefinite (h.assembled.distinct h.data.blocks) hreg hquasi
  have hcount := hpositive hholds
  rw [← hcols, Kkt.count_sign] at hcount
  rw [verdict_of_ok houtcome]
  exact if_pos hcount

end DirectSystem.Invariant

/-! ## 3. Sessions -/

/-- Usable factors make every solve succeed, or report what is wrong with its arguments or its
    result. -/
theorem DirectSystem.Invariant.exists_workspace_solve_of_usable {α : Type} [Scalar α]
    {ordering : FillOrdering} {A P U : Sparse α} {primal : α} {settings : Settings α}
    {dual : Array α} {s : DirectSystem α}
    (h : Invariant ordering A P U primal settings dual s) (husable : s.usable = true)
    (b : Array α) (warm : Option (Array α)) (tol : α) :
    ∃ t x status, (Workspace.direct s).solve A P b warm tol = .ok (t, x, status) ∧
      status ≠ .factorizationFailed := by
  by_cases hvalid : (Workspace.direct s).validSolve b warm tol = true
  · have hb := (h.validSolve_iff.1 hvalid).1
    obtain ⟨r, hr, -⟩ := h.exists_solveRefined hb (fun _ => True) (fun _ _ => trivial)
      fun _ _ _ _ _ _ _ _ => trivial
    have hsolve := h.solve_of_usable husable hb hr
    by_cases hfinite : Vec.isFinite r.x = true
    · rw [if_pos hfinite] at hsolve
      exact ⟨_, _, _, h.workspace_solve_of_valid hvalid hsolve, by simp⟩
    · rw [if_neg hfinite] at hsolve
      exact ⟨_, _, _, h.workspace_solve_of_valid hvalid hsolve, by simp⟩
  · exact ⟨_, _, _, h.workspace_solve_of_not_valid hvalid, by simp⟩

namespace Session

open DirectSystem

/-- The sessions of the direct method whose factors are usable. -/
structure Sound (ordering : FillOrdering) (A P U : Sparse K) (primal : K) (settings : Settings K)
    (s : Session K) : Prop where
  ofDirect : OfDirect ordering A P U primal settings s
  usable : s.workspace.usable = true

section Data

variable {ordering : FillOrdering} {A P U : Sparse K} {primal : K} {settings : Settings K}
  (hreg : settings.regularize = false) {S : Matrix (Fin A.cols) (Fin A.cols) K} (hS : P.Stores S)
  (hsemidefinite : ∀ x, 0 ≤ x ⬝ᵥ S *ᵥ x) (hprimal : 0 < primal)

include hreg hS hsemidefinite hprimal

/-- An update with a valid regularizer succeeds. -/
theorem Sound.exists_update {s : Session K} (hs : Sound ordering A P U primal settings s)
    {dual : Array K} (hsize : dual.size = A.rows)
    (hall : dual.all Scalar.isPositiveFinite = true) :
    ∃ t, s.workspace.update A P dual = .ok (t, .ok ()) ∧ t.usable = true ∧
      OfDirect ordering A P U primal settings ⟨t, dual⟩ := by
  obtain ⟨⟨h, -⟩, -⟩ := hs
  obtain ⟨t, hupdate, ht, hholds, husable⟩ :=
    h.exists_workspace_update (Scalar.exact_isFinite primal) hsize hall
  have hverdict := ht.verdict_eq_ok hreg hS hsemidefinite hprimal (vector_pos hsize hall) hholds
  rw [hverdict] at hupdate husable
  exact ⟨_, hupdate, husable, ht, fun _ => rfl⟩

/-- A call keeps the factors usable. -/
theorem Sound.exists_call {s : Session K} (hs : Sound ordering A P U primal settings s)
    (c : Call K) : ∃ t, s.call A P c = .ok t ∧ Sound ordering A P U primal settings t := by
  obtain ⟨⟨h, hwritten⟩, husable⟩ := id hs
  cases c with
  | solve b warm tol =>
    obtain ⟨t, x, status, hsolve, ht, hkeep⟩ := h.exists_workspace_solve b warm tol
    exact ⟨_, call_solve hsolve, ⟨ht, fun hu => hwritten (hkeep ▸ hu)⟩, hkeep.trans husable⟩
  | update dual =>
    cases hcheck : (Workspace.direct _).checkUpdate dual with
    | error e => exact ⟨_, call_update (h.workspace_update_of_error hcheck), ⟨h, hwritten⟩, husable⟩
    | ok u =>
      obtain ⟨hsize, hall⟩ := h.checkUpdate_eq_ok.1 hcheck
      obtain ⟨t, hupdate, hkeep, ht⟩ := hs.exists_update hreg hS hsemidefinite hprimal hsize hall
      exact ⟨_, call_update hupdate, ht, hkeep⟩

end Data

end Session

namespace Workspace

/-- **Quasidefinite data never breaks the direct method.** If the quadratic term is positive
    semidefinite and the regularizers are positive, construction succeeds under every ordering,
    and after any calls every update with a positive regularizer succeeds and no solve finds the
    factors unusable. -/
theorem quasidefinite_never_fails (ordering : FillOrdering) {A P : Sparse K}
    (hA : A.checkFormat.run = .ok (.ok ())) (hP : P.checkFormat.run = .ok (.ok ()))
    (hrows : P.rows = A.cols) (hcols : P.cols = A.cols)
    {S : Matrix (Fin A.cols) (Fin A.cols) K} (hS : P.Stores S)
    (hsemidefinite : ∀ x, 0 ≤ x ⬝ᵥ S *ᵥ x) (reg : Regularization K)
    (hdual : reg.dual.size = A.rows) (settings : Settings K)
    (hsettings : settings.validate = .ok ()) (hmethod : settings.method = .direct)
    (hreg : settings.regularize = false) :
    ∃ w, (new ordering A P reg settings).run = .ok (.ok w) ∧ ∀ calls : List (Call K),
      ∃ s, Session.run A P ⟨w, reg.dual⟩ calls = .ok s ∧ s.workspace.usable = true ∧
        (∀ dual : Array K, dual.size = A.rows → (∀ r ∈ dual, 0 < r) →
          ∃ t, s.workspace.update A P dual = .ok (t, .ok ())) ∧
        ∀ (b : Array K) (warm : Option (Array K)) (tol : K),
          ∃ t x status, s.workspace.solve A P b warm tol = .ok (t, x, status) ∧
            status ≠ .factorizationFailed := by
  obtain ⟨U, hdata⟩ := DirectSystem.exists_data (Sparse.wellFormed_of_checkFormat hA)
    (Sparse.wellFormed_of_checkFormat hP) hrows hcols
  have hadmissible : Admissible A P settings := ⟨hsettings, hrows, hcols, fun _ =>
    checkMatrices_eq_ok hA hP (hrows.trans hcols.symm) (hS.upper_or_symmetric hcols)⟩
  have hprimal : 0 < reg.primal := by simpa using reg.primal_ok
  obtain ⟨s, hs, hholds, husable, hnew⟩ :=
    Session.exists_new_direct hdata hadmissible hdual hmethod ordering
  have hverdict := hs.verdict_eq_ok hreg hS hsemidefinite hprimal (vector_pos hdual reg.dual_ok)
    hholds
  rw [hverdict] at hnew husable
  refine ⟨_, hnew, fun calls => ?_⟩
  obtain ⟨t, hrun, ht⟩ := Session.exists_run _
    (fun _ c h => h.exists_call hreg hS hsemidefinite hprimal c) calls
    (Session.Sound.mk (.intro hs fun _ => rfl) husable)
  refine ⟨t, hrun, ht.usable, fun dual hsize hpositive => ?_, fun b warm tol => ?_⟩
  · have hall : dual.all Scalar.isPositiveFinite = true := by
      rw [Array.all_eq_true_iff_forall_mem]
      simpa using hpositive
    obtain ⟨u, hupdate, -⟩ := ht.exists_update hreg hS hsemidefinite hprimal hsize hall
    exact ⟨u, hupdate⟩
  · obtain ⟨⟨h, -⟩, husable⟩ := ht
    exact h.exists_workspace_solve_of_usable husable b warm tol

/-- The small problem can be updated after any calls. -/
theorem quasidefinite_never_fails_sample : ∃ w,
    (new .minimumDegree Sample.constraint Sample.quadratic
      (Sample.regularization 3 three_pos) .standard).run = .ok (.ok w) ∧
    ∀ calls, ∃ s t, Session.run Sample.constraint Sample.quadratic ⟨w, #[3]⟩ calls = .ok s ∧
      s.workspace.update Sample.constraint Sample.quadratic #[5] = .ok (t, .ok ()) := by
  have hsemidefinite : ∀ x, 0 ≤ x ⬝ᵥ Sample.quadratic.matrix 2 2 *ᵥ x := by
    intro x
    have hdense : Sample.quadratic.dense 0 0 = 2 ∧ Sample.quadratic.dense 0 1 = 1 ∧
        Sample.quadratic.dense 1 0 = 1 ∧ Sample.quadratic.dense 1 1 = 3 := by decide +kernel
    simp only [dotProduct, Matrix.mulVec, Fin.sum_univ_two, Sparse.matrix_apply, Fin.val_zero,
      Fin.val_one, hdense]
    nlinarith [sq_nonneg (x 0 + x 1), sq_nonneg (x 0), sq_nonneg (x 1)]
  obtain ⟨w, hnew, hcalls⟩ := quasidefinite_never_fails .minimumDegree
    Sample.constraint_ok Sample.quadratic_ok rfl rfl (.of_symm (by decide +kernel)) hsemidefinite
    (Sample.regularization 3 three_pos) rfl .standard
    (by decide +kernel) rfl rfl
  refine ⟨w, hnew, fun calls => ?_⟩
  obtain ⟨s, hrun, -, hupdate, -⟩ := hcalls calls
  obtain ⟨t, ht⟩ := hupdate #[5] rfl (by simp)
  exact ⟨s, t, hrun, ht⟩

end Workspace

end Quasidefinite

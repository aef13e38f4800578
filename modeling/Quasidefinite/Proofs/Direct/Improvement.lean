import Quasidefinite.Proofs.Direct.System
import Quasidefinite.Proofs.Quotient

/-!
# What refinement does to the residual

A step of the refinement tries a solution, measures its residual, and divides the residual it had
by the new one (`Refinement.Step`). What the quotient tells is that the residual did not grow, if
the settings ask for a reduction at all, and that it is finite; so no run of steps makes the
residual larger, and none that ends with a residual that is a number loses a finite solution
(`Refinement.noWorse_of_run`). A quotient that is not a number tells nothing, and passes for a large
one.

That a solution with a finite residual is itself finite holds because every diagonal entry of the
matrix is stored (`Sparse.Triangle.isFinite_of_symv`).
-/

namespace Quasidefinite

variable {α : Type} [Scalar α]

/-! ## 1. Finite products -/

namespace Sparse

/-- All diagonal entries are stored. -/
def StoresDiagonal (A : Sparse α) : Prop := ∀ j < A.cols, j ∈ A.rowsOf j

section Finite

variable [AbsorbingScalar α] {A : Sparse α} {a : α} {x y : Nat → α} {col i : Nat}

open AbsorbingScalar

/-- What the step adds to a component is finite if the component is afterwards. -/
theorem isFinite_of_symmetricStep {e : Nat × α}
    (h : Scalar.isFinite (symmetricStep a x col y e i) = true) :
    Scalar.isFinite (y i) = true ∧ (i = col → e.1 = col → Scalar.isFinite (x col) = true) := by
  unfold symmetricStep at h
  by_cases hdiag : e.1 = col
  · rw [if_pos hdiag, Function.update_apply] at h
    by_cases hi : i = e.1
    · rw [if_pos hi] at h
      obtain ⟨hy, hterm⟩ := isFinite_of_add h
      exact ⟨hi ▸ hy, fun _ _ => (isFinite_of_mul hterm).2⟩
    · rw [if_neg hi] at h
      exact ⟨h, fun hcol _ => absurd (hcol.trans hdiag.symm) hi⟩
  · refine ⟨?_, fun _ he => absurd he hdiag⟩
    rw [if_neg hdiag, Function.update_apply, Function.update_apply, Function.update_apply,
      if_neg (Ne.symm hdiag)] at h
    by_cases hcol : i = col
    · rw [if_pos hcol] at h
      exact hcol ▸ (isFinite_of_add h).1
    · rw [if_neg hcol] at h
      by_cases hi : i = e.1
      · rw [if_pos hi] at h
        exact hi ▸ (isFinite_of_add h).1
      · rwa [if_neg hi] at h

theorem isFinite_of_foldl_symmetricStep {es : List (Nat × α)}
    (h : Scalar.isFinite (es.foldl (symmetricStep a x col) y i) = true) :
    Scalar.isFinite (y i) = true ∧
      (i = col → ∀ e ∈ es, e.1 = col → Scalar.isFinite (x col) = true) := by
  induction es generalizing y with
  | nil => exact ⟨h, fun _ _ he => nomatch he⟩
  | cons e es ih =>
    obtain ⟨hstep, hlater⟩ := ih h
    obtain ⟨hy, hdiag⟩ := isFinite_of_symmetricStep hstep
    refine ⟨hy, fun hi e' he' => ?_⟩
    rcases List.mem_cons.1 he' with rfl | he'
    · exact hdiag hi
    · exact hlater hi e' he'

/-- A component of the product is finite only if that of the factor is. -/
theorem isFinite_of_symvSweep {n : Nat} (hi : i < n) (hdiag : i ∈ A.rowsOf i)
    (h : Scalar.isFinite (A.symvSweep a x n y i) = true) : Scalar.isFinite (x i) = true := by
  induction n with
  | zero => exact absurd hi (Nat.not_lt_zero i)
  | succ n ih =>
    -- a column only adds to the components, and to its own a multiple of the entry there
    rw [symvSweep_succ] at h
    obtain ⟨hbefore, hcolumn⟩ := isFinite_of_foldl_symmetricStep h
    by_cases heq : i = n
    · subst heq
      rw [← map_fst_entries] at hdiag
      obtain ⟨e, he, hrow⟩ := List.mem_map.1 hdiag
      exact hcolumn rfl e he hrow
    · exact ih (by omega) hbefore

/-- **A vector whose product is finite is finite**, if all diagonal entries are stored. -/
theorem Triangle.isFinite_of_symv (hA : A.Triangle) (hdiag : A.StoresDiagonal) {u v z : Array α}
    {c : α} (h : A.symv v u a c = .ok z) (hz : ∀ zi ∈ z, Scalar.isFinite zi = true) :
    Vec.isFinite u = true := by
  obtain ⟨hu, hv⟩ := sizes_of_symv h
  obtain ⟨w, hw, hsize, hsweep⟩ := hA.exists_symv hu hv a c
  obtain rfl : z = w := Except.ok.inj (h.symm.trans hw)
  refine Array.all_eq_true.2 fun i hi => ?_
  have hcols : i < A.cols := hu ▸ hi
  have hfinite : Scalar.isFinite (z.getD i 0) = true := by
    rw [getD_of_lt z i 0 (hsize.symm ▸ hcols)]
    exact hz _ (Array.getElem_mem _)
  rw [congrFun hsweep i] at hfinite
  have hui := isFinite_of_symvSweep hcols (hdiag i hcols) hfinite
  rwa [getD_of_lt u i 0 hi] at hui

end Finite

end Sparse

/-- The assembled matrix stores all its diagonal entries. -/
theorem Kkt.Assembled.storesDiagonal {P A : Sparse α} (h : Blocks P A) {f : α → α} {d : Nat → α}
    {K : Kkt α} (hK : Assembled P A f d K) : K.matrix.StoresDiagonal := by
  intro j hj
  obtain ⟨hlt, hrow⟩ := hK.last_place h (hK.layout.cols_eq ▸ hj)
  refine List.mem_map.2 ⟨K.matrix.start (j + 1) - 1, Sparse.mem_positions.2 ?_, hrow⟩
  omega

/-! ## 2. Measured residuals -/

namespace Refinement

variable {settings : Settings α} {K : Sparse α} {F : Factorization α} {b : Array α} {normb : α}
  {s t : State α} {p : Progress α}

/-- The largest entry of the residual of `x`. -/
def residualNorm (K : Sparse α) (b x : Array α) : Checked α := do
  let e ← K.symv b x (-1) 1
  pure (Vec.normInf e)

theorem residualNorm_of_symv {x e : Array α} (he : K.symv b x (-1) 1 = .ok e) :
    residualNorm K b x = .ok (Vec.normInf e) := by
  rw [residualNorm, he]
  rfl

/-- The norm is that of the residual of the solution. -/
def Measured (K : Sparse α) (b : Array α) (s : State α) : Prop :=
  residualNorm K b s.x = .ok s.norm

/-- **Every step measures the solution it leads to**, in every arithmetic. -/
theorem Step.measured (h : Step settings K F b normb s p) (hs : Measured K b s) :
    Measured K b p.state := by
  cases h with
  | finished h => exact hs
  | dropped x e hgoing htried hshort hworse => exact hs
  | kept x e hgoing htried hshort hbetter => exact residualNorm_of_symv htried.residual_eq
  | accepted x e hgoing htried henough => exact residualNorm_of_symv htried.residual_eq

/-- A run of steps measures the solution that it ends with, in every arithmetic. -/
theorem measured_of_run (hs : Measured K b s) {count : Nat}
    (h : run settings K F b normb count s = .ok t) : Measured K b t :=
  run_keeps (Measured K b) (fun _ _ hs hstep => hstep.measured hs) hs h

theorem isFinite_of_not_finished (h : finished settings normb s.norm = false) :
    Scalar.isFinite s.norm = true := by
  unfold finished at h
  rw [Bool.or_eq_false_iff, Bool.not_eq_false'] at h
  exact h.1

/-! ## 3. The residual -/

/-- The first solution leads to the second one without being made worse. -/
structure NoWorse (settings : Settings α) (s t : State α) : Prop where
  isNaN_eq : Scalar.isNaN s.norm = false
  isFinite : Vec.isFinite s.x = true → Vec.isFinite t.x = true
  le : 1 ≤ settings.refineStopRatio → t.norm ≤ s.norm

theorem NoWorse.refl [OrderedScalar α] (h : Scalar.isNaN s.norm = false) : NoWorse settings s s :=
  ⟨h, id, fun _ => OrderedScalar.le_refl h⟩

theorem NoWorse.trans [OrderedScalar α] {u : State α} (hst : NoWorse settings s t)
    (htu : NoWorse settings t u) : NoWorse settings s u :=
  ⟨hst.isNaN_eq, fun h => htu.isFinite (hst.isFinite h),
    fun h => OrderedScalar.le_trans (htu.le h) (hst.le h)⟩

section Improvement

variable [QuotientScalar α]

open OrderedScalar QuotientScalar

/-- The norm of a residual that was measured is not negative. -/
theorem Measured.nonneg (h : Measured K b s) (hnan : Scalar.isNaN s.norm = false) : 0 ≤ s.norm := by
  obtain ⟨e, -, h⟩ := Checked.bind_eq_ok.1 h
  rw [← Except.ok.inj h] at hnan ⊢
  exact (Vec.le_normInf hnan).1

variable [AbsorbingScalar α]

/-- A solution that was tried is no worse, if the quotient of the residuals shows that. -/
theorem Tried.noWorse {x e : Array α} (h : Tried K F b s x e) (hK : K.Triangle)
    (hdiag : K.StoresDiagonal) (hs : Measured K b s)
    (hgoing : finished settings normb s.norm = false)
    (hnan : Scalar.isNaN (Vec.normInf e) = false) {ratio : α} (hratio : 0 < ratio)
    (hquotient : ¬ s.norm / Vec.normInf e < ratio)
    (hone : 1 ≤ settings.refineStopRatio → ¬ s.norm / Vec.normInf e < 1) :
    NoWorse settings s ⟨x, e, Vec.normInf e, s.steps + 1⟩ := by
  have hnorm := isFinite_of_not_finished hgoing
  have hnumber := isNaN_of_isFinite hnorm
  have hfinite := isFinite_of_not_div_lt hnorm hnan hratio hquotient
  exact ⟨hnumber,
    fun _ => hK.isFinite_of_symv hdiag h.residual_eq (Vec.isFinite_of_normInf hfinite),
    fun h => le_of_not_div_lt_one hnorm (hs.nonneg hnumber) hnan (hone h)⟩

/-- **No step makes the residual larger or loses a finite solution**, if it leads to a residual
    that is a number. -/
theorem Step.noWorse (h : Step settings K F b normb s p) (hK : K.Triangle)
    (hdiag : K.StoresDiagonal) (hstop : 0 < settings.refineStopRatio) (hs : Measured K b s)
    (hnan : Scalar.isNaN p.state.norm = false) : NoWorse settings s p.state := by
  cases h with
  | finished h => exact .refl hnan
  | dropped x e hgoing htried hshort hworse =>
    have hnumber := isNaN_of_isFinite (isFinite_of_not_finished hgoing)
    exact ⟨hnumber, id, fun _ => le_refl hnumber⟩
  | kept x e hgoing htried hshort hbetter =>
    have hone : ¬ s.norm / Vec.normInf e < 1 := not_lt_of_lt hbetter
    exact htried.noWorse hK hdiag hs hgoing hnan zero_lt_one hone fun _ => hone
  | accepted x e hgoing htried henough =>
    -- the ratio asked for may be below one, and then the residual may have grown
    exact htried.noWorse hK hdiag hs hgoing hnan hstop henough fun hone hlt =>
      henough (lt_of_lt_of_le hlt hone)

/-- **No run of steps makes the residual larger or loses a finite solution**, if it ends with a
    residual that is a number. -/
theorem noWorse_of_run (hK : K.Triangle) (hdiag : K.StoresDiagonal)
    (hstop : 0 < settings.refineStopRatio) (hs : Measured K b s) {count : Nat}
    (h : run settings K F b normb count s = .ok t) (hnan : Scalar.isNaN t.norm = false) :
    NoWorse settings s t := by
  have hkeeps := run_keeps
    (fun u => Measured K b u ∧ (Scalar.isNaN u.norm = false → NoWorse settings s u))
    (fun u p hu hstep => ⟨hstep.measured hu.1, fun hnan => by
      have hlast := hstep.noWorse hK hdiag hstop hu.1 hnan
      exact (hu.2 hlast.isNaN_eq).trans hlast⟩)
    ⟨hs, .refl⟩ h
  exact hkeeps.2 hnan

end Improvement

end Refinement

/-! ## 4. Solves -/

open Refinement in
/-- **A solve of a direct system measures what the factors give and what it ends with**, and does
    not make it worse if the residual it ends with is a number. -/
theorem DirectSystem.Invariant.exists_noWorse [QuotientScalar α] [AbsorbingScalar α]
    {ordering : FillOrdering} {A P U : Sparse α} {primal : α} {settings : Settings α}
    {dual : Array α} {s : DirectSystem α}
    (h : Invariant ordering A P U primal settings dual s) (hstop : 0 < settings.refineStopRatio)
    {b : Array α} (hb : b.size = A.rows + A.cols) :
    ∃ first last, s.factorization.solve b = .ok first.x ∧ s.solveRefined b = .ok last ∧
      Measured s.kkt.matrix b first ∧ Measured s.kkt.matrix b last ∧
      (Scalar.isNaN last.norm = false → NoWorse settings first last) := by
  have hb' := hb.trans h.cols_eq.symm
  have hscratch := (h.size_scratch.trans h.cols_eq.symm).trans hb'.symm
  have hdiag := h.assembled.storesDiagonal h.data.blocks
  obtain ⟨x, hx, hsize⟩ := h.of.exists_solve_size hb'
  obtain ⟨e, he, -, -⟩ := h.triangle.exists_symv hsize hb' (-1) 1
  have hresidual := residual_eq hscratch he
  let first : State α := ⟨x, e, Vec.normInf e, 0⟩
  have hfirst : Measured s.kkt.matrix b first := residualNorm_of_symv he
  obtain ⟨last, hlast, -⟩ := h.exists_solveRefined hb (fun _ => True) (fun _ _ => trivial)
    fun _ _ _ _ _ _ _ _ => trivial
  refine ⟨first, last, hx, hlast, hfirst, ?_⟩
  unfold solveRefined at hlast
  rw [hx, Checked.ok_bind, h.settings_eq] at hlast
  by_cases hrefine : settings.refine = true
  · rw [if_pos hrefine, Factorization.refine, hresidual, Checked.ok_bind] at hlast
    exact ⟨measured_of_run hfirst hlast, noWorse_of_run h.triangle hdiag hstop hfirst hlast⟩
  · rw [if_neg hrefine, hresidual] at hlast
    cases hlast
    exact ⟨hfirst, .refl⟩

end Quasidefinite

import Quasidefinite.Proofs.Workspace.Record

/-!
# Finite solutions

A solve tests what it has computed for values that are not finite, before it hands it back. The two
methods do so at different points. The direct method tests the whole solution, so that all that it
hands back is finite. The indirect method tests the first block of the solution and recovers the
second one after that, so that what it hands back is finite exactly if the second block happens to
be (`Workspace.solutions_tested`). The reciprocal of a small dual regularizer makes that block
overflow (`Workspace.infinite_second_block`).
-/

namespace Quasidefinite

variable {α : Type} [Scalar α]

/-! ## 1. Sizes -/

namespace IndirectSystem

open ConjugateGradient

variable {s t : IndirectSystem α} {A P : Sparse α} {b z dual : Array α}
  {warm : Option (Array α)} {tol : α}

/-- The iterate and the scratch space fit the number of variables. -/
structure Sized (s : IndirectSystem α) : Prop where
  size_x : s.x.size = s.fingerprint.cols
  work : s.work.Sized s.fingerprint.cols

theorem sized_of_new {reg : Regularization α} {settings : Settings α}
    (h : new A P reg settings = .ok s) : s.Sized := by
  obtain ⟨f, hf, h⟩ := Checked.bind_eq_ok.1 h
  obtain ⟨op, -, h⟩ := Checked.bind_eq_ok.1 h
  obtain ⟨diag, -, h⟩ := Checked.bind_eq_ok.1 h
  cases h
  have hcols := (dims_of_fingerprint hf).2
  refine ⟨?_, ?_⟩
  · dsimp only
    rw [Vec.size_zeros, hcols]
  · dsimp only
    rw [hcols]
    exact Scratch.sized_new _

namespace Sized

variable (hs : s.Sized)

include hs

/-- **What conjugate gradients find has an entry for every variable.** -/
theorem of_run {q : Problem α} {x₀ x : Array α} {result : Result α} {work : Scratch α}
    (hpose : s.pose A P b warm tol = .ok (q, x₀))
    (hrun : run q s.maxIter x₀ s.work = .ok (result, x, work)) :
    (s.solved result x work).Sized := by
  obtain ⟨-, -, -, -, -, -, -, -, hstart, -, -⟩ := pose_eq_ok.1 hpose
  obtain ⟨hx, hwork⟩ := sized_of_run (keeps_of_pose hpose)
    ((size_start hstart).trans hs.size_x) hs.work hrun
  exact ⟨hx, hwork⟩

theorem solve {status : Status} (h : s.solve A P b warm tol = .ok (t, z, status)) : t.Sized := by
  obtain ⟨q, x₀, result, x, work, hpose, hrun, rfl, -⟩ := cases_solve h
  exact hs.of_run hpose hrun

theorem update {result : Except SystemError Unit} (h : s.update A P dual = .ok (t, result)) :
    t.Sized := by
  rcases cases_update h with ⟨rfl, -⟩ | ⟨-, -, -, h⟩
  · exact hs
  · obtain ⟨op, -, h⟩ := Checked.bind_eq_ok.1 h
    obtain ⟨diag, -, h⟩ := Checked.bind_eq_ok.1 h
    cases h
    exact ⟨hs.size_x, hs.work⟩

end Sized

end IndirectSystem

namespace Workspace

variable {w t : Workspace α} {A P : Sparse α} {events : List (Event α)}

/-- A workspace for the indirect method fits the number of variables. -/
def Sized : Workspace α → Prop
  | .direct _ => True
  | .indirect s => s.Sized

theorem sized_of_new {ordering : FillOrdering} {reg : Regularization α} {settings : Settings α}
    (h : (new ordering A P reg settings).run = .ok (.ok w)) : w.Sized := by
  rcases cases_new h with ⟨s, rfl, -⟩ | ⟨s, rfl, hs⟩
  · trivial
  · exact IndirectSystem.sized_of_new hs

theorem Sized.solve (hw : w.Sized) {b z : Array α} {warm : Option (Array α)} {tol : α}
    {status : Status} (h : w.solve A P b warm tol = .ok (t, z, status)) : t.Sized := by
  rcases cases_solve h with ⟨rfl, -⟩ | ⟨-, -, h⟩
  · exact hw
  cases w with
  | direct s =>
    obtain ⟨u, -, rfl⟩ := solveChecked_direct_eq_ok.1 h
    trivial
  | indirect s =>
    obtain ⟨u, hsystem, rfl⟩ := solveChecked_indirect_eq_ok.1 h
    exact IndirectSystem.Sized.solve hw hsystem

theorem Sized.update (hw : w.Sized) {dual : Array α} {result : Except SystemError Unit}
    (h : w.update A P dual = .ok (t, result)) : t.Sized := by
  rcases cases_update h with ⟨rfl, -⟩ | ⟨-, h⟩
  · exact hw
  cases w with
  | direct s =>
    obtain ⟨u, -, rfl⟩ := updateChecked_direct_eq_ok.1 h
    trivial
  | indirect s =>
    obtain ⟨u, hsystem, rfl⟩ := updateChecked_indirect_eq_ok.1 h
    exact IndirectSystem.Sized.update hw hsystem

/-- **Every workspace fits the number of variables**, over whole runs. -/
theorem Past.sized {allowed : Sparse α → Sparse α → Prop} {ordering : FillOrdering}
    {reg : Regularization α} {settings : Settings α} {w₀ : Workspace α}
    (hnew : (new ordering A P reg settings).run = .ok (.ok w₀))
    (hw : Past allowed w₀ events w) : w.Sized := by
  induction hw with
  | none => exact sized_of_new hnew
  | solve _ _ h ih => exact ih.solve h
  | update _ _ h ih => exact ih.update h

/-! ## 2. The test -/

/-- What a solve computes and tests: the whole solution, or its first block. -/
def tested (w : Workspace α) (A P : Sparse α) (b : Array α) (warm : Option (Array α)) (tol : α) :
    Checked (Array α) :=
  match w with
  | .direct s => do
    let r ← s.solveRefined b
    pure r.x
  | .indirect s => do
    let (q, x) ← s.pose A P b warm tol
    let (_, x, _) ← ConjugateGradient.run q s.maxIter x s.work
    pure x

/-- What a solve computes after the test and hands back untested: nothing, or the second block. -/
def untested (w : Workspace α) (A : Sparse α) (b x : Array α) : Checked (Array α) :=
  match w with
  | .direct _ => pure #[]
  | .indirect s => s.recover A x (b.extract s.fingerprint.cols b.size)

/-- **What a solve hands back has been tested as far as its method does so.** In every workspace
    that construction and some calls lead to, a solve that is carried out reports an error exactly
    if it finds a value that is not finite in what it tests. Everything that the direct method
    hands back is finite. The indirect method tests one entry for every variable, and what it hands
    back is finite exactly if the second block, recovered after the test, is. -/
theorem solutions_tested {ordering : FillOrdering} {A₀ P₀ : Sparse α} {reg : Regularization α}
    {settings : Settings α} {w₀ : Workspace α}
    (hnew : (new ordering A₀ P₀ reg settings).run = .ok (.ok w₀))
    (hw : Past anyMatrices w₀ events w) {b z : Array α} {warm : Option (Array α)} {tol : α}
    {status : Status} (h : w.solve A P b warm tol = .ok (t, z, status))
    (hvalid : status ≠ .invalidInput) (husable : status ≠ .factorizationFailed) :
    ∃ x, w.tested A P b warm tol = .ok x ∧
      (w.method = .indirect → x.size = w.fingerprint.cols) ∧
      (status = .numericalError ↔ Vec.isFinite x = false) ∧
      (status = .success ∨ status = .notConverged →
        (w.method = .direct → Vec.isFinite z = true) ∧
        ∃ y, w.untested A b x = .ok y ∧ z = x ++ y ∧
          (Vec.isFinite z = true ↔ Vec.isFinite y = true)) := by
  have hsized := hw.sized hnew
  rcases cases_solve h with ⟨-, -, rfl⟩ | ⟨-, -, h⟩
  · exact absurd rfl hvalid
  cases w with
  | direct s =>
    obtain ⟨t, hsystem, rfl⟩ := solveChecked_direct_eq_ok.1 h
    rcases DirectSystem.cases_solve hsystem with
      ⟨-, -, -, rfl⟩ | ⟨r, -, -, hr, -, houtcome⟩
    · exact absurd rfl husable
    have htested : (direct s).tested A P b warm tol = .ok r.x := by rw [tested, hr]; rfl
    refine ⟨r.x, htested, fun h => (by cases h), ?_⟩
    rcases houtcome with ⟨hfinite, rfl, rfl⟩ | ⟨hfinite, -, rfl⟩
    · exact ⟨iff_of_false (by decide) (by simp [hfinite]), fun _ => ⟨fun _ => hfinite, #[], rfl,
        Array.append_empty.symm, iff_of_true hfinite (by simp [Vec.isFinite])⟩⟩
    · exact ⟨iff_of_true rfl hfinite, fun h => absurd h (by decide)⟩
  | indirect s =>
    obtain ⟨t, hsystem, rfl⟩ := solveChecked_indirect_eq_ok.1 h
    obtain ⟨q, x₀, result, x, work, hpose, hrun, -, houtcome⟩ :=
      IndirectSystem.cases_solve hsystem
    have htested : (indirect s).tested A P b warm tol = .ok x := by
      rw [tested, hpose, Checked.ok_bind]
      dsimp only
      rw [hrun]
      rfl
    refine ⟨x, htested, fun _ => (hsized.of_run hpose hrun).size_x, ?_⟩
    rcases houtcome with ⟨hfinite, ⟨y, hy, rfl⟩, rfl⟩ | ⟨hfinite, -, rfl⟩
    · refine ⟨iff_of_false (by split <;> decide) (by simp [hfinite]),
        fun _ => ⟨fun h => (by cases h), y, hy, rfl, ?_⟩⟩
      rw [Vec.isFinite_append, hfinite, Bool.true_and]
    · exact ⟨iff_of_true rfl hfinite, fun h => absurd h (by decide)⟩

end Workspace

/-! ## 3. A small problem in double precision -/

namespace Sample

/-- A matrix without entries. -/
def machineZero : Sparse Float where
  rows := 1
  cols := 1
  colStart := #[0, 0]
  rowIndex := #[]
  value := #[]

/-- Regularizers that are all one. -/
def unitRegularization : Regularization Float where
  primal := 1
  dual := #[1]
  primal_ok := by decide +kernel
  dual_ok := by decide +kernel

/-- Regularizers whose dual entry has a large reciprocal. -/
def machineRegularization : Regularization Float where
  primal := 1
  dual := #[1e-300]
  primal_ok := by decide +kernel
  dual_ok := by decide +kernel

/-- The workspace for the small problem. -/
def machineWorkspace : Workspace Float :=
  (Workspace.new .minimumDegree machineZero machineZero machineRegularization
    { Settings.standard with direct := false }).answer?.get (by decide +kernel)

theorem machine_new_eq : (Workspace.new .minimumDegree machineZero machineZero
    machineRegularization { Settings.standard with direct := false }).run =
      .ok (.ok machineWorkspace) :=
  Attempt.run_of_answer? (Option.some_get _).symm

end Sample

namespace Workspace

/-- In the small problem the first block passes the test, and the second one overflows. -/
theorem solutions_tested_sample : ∃ t z x y,
    Sample.machineWorkspace.solve Sample.machineZero Sample.machineZero #[0, 1e100] none 1e-3 =
      .ok (t, z, .success) ∧
    Sample.machineWorkspace.tested Sample.machineZero Sample.machineZero #[0, 1e100] none 1e-3 =
      .ok x ∧ Vec.isFinite x = true ∧
    Sample.machineWorkspace.untested Sample.machineZero #[0, 1e100] x = .ok y ∧
    Vec.isFinite y = false := by
  have hrun : (Sample.machineWorkspace.solve Sample.machineZero Sample.machineZero #[0, 1e100] none
      1e-3).map (fun r => decide (r.2.2 = .success ∧ Vec.isFinite r.2.1 = false)) = .ok true := by
    decide +kernel
  obtain ⟨⟨t, z, status⟩, hsolve, hrun⟩ := Checked.exists_of_map hrun
  obtain ⟨rfl, hinfinite⟩ := of_decide_eq_true hrun
  obtain ⟨x, hx, -, hfinite, houtcome⟩ := solutions_tested Sample.machine_new_eq
    (.none : Past anyMatrices _ [] _) hsolve nofun nofun
  obtain ⟨-, y, hy, -, hiff⟩ := houtcome (.inl rfl)
  refine ⟨t, z, x, y, hsolve, hx, ?_, hy, ?_⟩
  · exact Bool.eq_true_of_not_eq_false fun h => nomatch hfinite.2 h
  · exact Bool.eq_false_of_not_eq_true fun h => by simp [hiff.2 h] at hinfinite

/-- **A solve that succeeds can hand back a value that is not finite.** -/
theorem infinite_second_block :
    (new .minimumDegree Sample.machineZero Sample.machineZero Sample.machineRegularization
      { Settings.standard with direct := false }).answer?.map (fun w =>
        (w.solve Sample.machineZero Sample.machineZero #[0, 1e100] none 1e-3).map fun r =>
          (r.2.2, r.2.1.map Scalar.isFinite)) = some (.ok (.success, #[true, false])) := by
  decide +kernel

end Workspace

end Quasidefinite

import Quasidefinite.Proofs.Workspace.Linked

/-!
# Calls that fail

A call that is refused leaves the workspace as it was, counters included, and a solve that hands
back no solution hands back its right hand side. A factorization that failed in an update is not
used by any solve that follows, until an update succeeds: the mark on the factors tells at all times
whether the last update that passed its validation succeeded (`Past.marked`).

None of this asks anything of the matrices, neither of those at construction nor of those of the
calls, or of the arithmetic.
-/

namespace Quasidefinite

namespace Workspace

variable {α : Type} [Scalar α] {w t : Workspace α} {A P : Sparse α} {events : List (Event α)}

/-! ## 1. Solves -/

/-- **A solve that hands back no solution hands back its right hand side**, and one that is not
    carried out leaves the workspace as it was. -/
theorem kept_of_solve {b z : Array α} {warm : Option (Array α)} {tol : α} {status : Status}
    (h : w.solve A P b warm tol = .ok (t, z, status)) :
    (z ≠ b → status = .success ∨ status = .notConverged) ∧
      (status = .invalidInput ∨ status = .factorizationFailed → t = w) := by
  rcases cases_solve h with ⟨rfl, rfl, rfl⟩ | ⟨-, -, h⟩
  · exact ⟨fun hz => absurd rfl hz, fun _ => rfl⟩
  cases w with
  | direct s =>
    obtain ⟨t, hsystem, rfl⟩ := solveChecked_direct_eq_ok.1 h
    rcases DirectSystem.cases_solve hsystem with
      ⟨-, rfl, rfl, rfl⟩ | ⟨r, -, -, -, rfl, ⟨-, rfl, rfl⟩ | ⟨-, rfl, rfl⟩⟩
    · exact ⟨fun hz => absurd rfl hz, fun _ => rfl⟩
    · exact ⟨fun _ => .inl rfl, by rintro (hstatus | hstatus) <;> cases hstatus⟩
    · exact ⟨fun hz => absurd rfl hz, by rintro (hstatus | hstatus) <;> cases hstatus⟩
  | indirect s =>
    obtain ⟨t, hsystem, rfl⟩ := solveChecked_indirect_eq_ok.1 h
    obtain ⟨q, x₀, result, x, work, -, -, -, houtcome⟩ := IndirectSystem.cases_solve hsystem
    rcases houtcome with ⟨-, -, rfl⟩ | ⟨-, rfl, rfl⟩
    · cases result.converged with
      | true => exact ⟨fun _ => .inl rfl, by rintro (hstatus | hstatus) <;> cases hstatus⟩
      | false => exact ⟨fun _ => .inr rfl, by rintro (hstatus | hstatus) <;> cases hstatus⟩
    · exact ⟨fun hz => absurd rfl hz, by rintro (hstatus | hstatus) <;> cases hstatus⟩

/-! ## 2. The mark on the factors -/

/-- **The factors of the direct method are marked usable unless the last update that passed its
    validation failed**, and new values find their places. -/
def Marked (events : List (Event α)) : Workspace α → Prop
  | .direct s => s.Linked ∧ s.usable = (lastPassed? events).all fun update => update.2.isOk
  | .indirect _ => True

theorem marked_of_new {ordering : FillOrdering} {reg : Regularization α} {settings : Settings α}
    (h : (new ordering A P reg settings).run = .ok (.ok w)) : Marked [] w := by
  rcases cases_new h with ⟨s, rfl, hs⟩ | ⟨s, rfl, -⟩
  · exact DirectSystem.linked_of_new hs
  · trivial

theorem Marked.solve (hw : Marked events w) {b z : Array α} {warm : Option (Array α)} {tol : α}
    {status : Status} (h : w.solve A P b warm tol = .ok (t, z, status)) :
    Marked (.solve z status :: events) t := by
  rcases cases_solve h with ⟨rfl, -⟩ | ⟨-, -, h⟩
  · cases t <;> exact hw
  cases w with
  | direct s =>
    obtain ⟨t, hsystem, rfl⟩ := solveChecked_direct_eq_ok.1 h
    obtain ⟨hlinked, husable⟩ := hw.1.solve hsystem
    exact ⟨hlinked, husable.trans hw.2⟩
  | indirect s =>
    obtain ⟨t, -, rfl⟩ := solveChecked_indirect_eq_ok.1 h
    trivial

/-- **An update that is refused leaves the workspace as it was**; every other one sets the mark. -/
theorem Marked.update (hw : Marked events w) {dual : Array α} {result : Except SystemError Unit}
    (h : w.update A P dual = .ok (t, result)) :
    (passed result = false → t = w) ∧ Marked (.update dual result :: events) t := by
  rcases cases_update h with ⟨rfl, hpassed⟩ | ⟨-, h⟩
  · refine ⟨fun _ => rfl, ?_⟩
    cases t with
    | direct s =>
      refine ⟨hw.1, ?_⟩
      rw [lastPassed?, hpassed, if_neg Bool.false_ne_true]
      exact hw.2
    | indirect s => trivial
  cases w with
  | direct s =>
    obtain ⟨t, hsystem, rfl⟩ := updateChecked_direct_eq_ok.1 h
    rcases hw.1.update hsystem with ⟨rfl, hpassed⟩ | ⟨hpassed, husable, hlinked⟩
    · refine ⟨fun _ => rfl, hw.1, ?_⟩
      rw [lastPassed?, hpassed, if_neg Bool.false_ne_true]
      exact hw.2
    · refine ⟨fun hfalse => absurd (hpassed.symm.trans hfalse) Bool.noConfusion, hlinked, ?_⟩
      rw [lastPassed?, hpassed, if_pos rfl]
      exact husable
  | indirect s =>
    obtain ⟨t, hsystem, rfl⟩ := updateChecked_indirect_eq_ok.1 h
    rcases IndirectSystem.cases_update hsystem with ⟨rfl, -⟩ | ⟨-, -, rfl, -⟩
    · exact ⟨fun _ => rfl, trivial⟩
    · exact ⟨fun hfalse => Bool.noConfusion hfalse, trivial⟩

/-- **The mark tells of the last update that passed its validation**, over whole runs. -/
theorem Past.marked {allowed : Sparse α → Sparse α → Prop} {ordering : FillOrdering}
    {reg : Regularization α} {settings : Settings α} {w₀ : Workspace α}
    (hnew : (new ordering A P reg settings).run = .ok (.ok w₀))
    (hw : Past allowed w₀ events w) : Marked events w := by
  induction hw with
  | none => exact marked_of_new hnew
  | solve _ _ h ih => exact ih.solve h
  | update _ _ h ih => exact (ih.update h).2

/-! ## 3. Failures -/

/-- With valid arguments a direct solve finds no usable factors exactly if they are marked so. -/
theorem factorizationFailed_iff {s : DirectSystem α} {b : Array α} {warm : Option (Array α)}
    {tol : α} (hadmits : s.fingerprint.admits A P = .ok true)
    (hvalid : (direct s).validSolve b warm tol = true) :
    (∃ t z, (direct s).solve A P b warm tol = .ok (t, z, .factorizationFailed)) ↔
      s.usable = false := by
  constructor
  · rintro ⟨t, z, h⟩
    rcases cases_solve h with ⟨-, -, hstatus⟩ | ⟨-, -, h⟩
    · cases hstatus
    obtain ⟨t, hsystem, rfl⟩ := solveChecked_direct_eq_ok.1 h
    rcases DirectSystem.cases_solve hsystem with
      ⟨husable, -⟩ | ⟨r, -, -, -, -, ⟨-, -, hstatus⟩ | ⟨-, -, hstatus⟩⟩
    · exact husable
    · cases hstatus
    · cases hstatus
  · intro husable
    have hsystem := DirectSystem.Invariant.solve_of_not_usable (s := s) (by simp [husable]) b
    refine ⟨direct s, b, ?_⟩
    rw [solve_of_admits (w := direct s) hadmits, hvalid, Bool.and_self, if_pos rfl]
    exact solveChecked_direct_eq_ok.2 ⟨s, hsystem, rfl⟩

/-- **Failures leave the workspace and the right hand side intact, and failed factors are never
    used.** In every workspace that construction and some calls lead to, with whatever matrices: a
    solve changes its right hand side only if it succeeds or has not converged; if its arguments
    are refused, or there are no usable factors, the whole workspace stays as it was; so it does if
    an update fails for another reason than the factorization; and for the direct method a solve
    with valid arguments finds no usable factors exactly if the last update that passed its
    validation failed. -/
theorem failures_leave_intact {ordering : FillOrdering} {A₀ P₀ : Sparse α}
    {reg : Regularization α} {settings : Settings α} {w₀ : Workspace α}
    (hnew : (new ordering A₀ P₀ reg settings).run = .ok (.ok w₀))
    (hw : Past anyMatrices w₀ events w) (A P : Sparse α) :
    (∀ b warm tol t z status, w.solve A P b warm tol = .ok (t, z, status) →
      (z ≠ b → status = .success ∨ status = .notConverged) ∧
      (status = .invalidInput ∨ status = .factorizationFailed → t = w)) ∧
    (∀ dual t e, w.update A P dual = .ok (t, .error e) → e.isNumeric = false → t = w) ∧
    (∀ b warm tol, w.method = .direct → w.fingerprint.admits A P = .ok true →
      w.validSolve b warm tol = true →
      ((∃ t z, w.solve A P b warm tol = .ok (t, z, .factorizationFailed)) ↔
        ∃ dual e, lastPassed? events = some (dual, .error e))) := by
  have hmarked := hw.marked hnew
  refine ⟨fun b warm tol t z status h => kept_of_solve h,
    fun dual t e h he => (hmarked.update h).1 he, fun b warm tol hmethod hadmits hvalid => ?_⟩
  cases w with
  | direct s =>
    rw [factorizationFailed_iff hadmits hvalid, hmarked.2]
    cases lastPassed? events with
    | none => simp
    | some update =>
      obtain ⟨dual, result⟩ := update
      cases result <;> simp [Except.isOk, Except.toBool]
  | indirect s => cases hmethod

end Workspace

open scoped Scalar in
/-- In the workspace for the concave problem an update fails for its inertia; neither a solve nor
    an update that is refused changes that, and the next valid solve finds no usable factors. -/
theorem Workspace.failures_leave_intact_sample : ∃ w z,
    Past anyMatrices Sample.concaveWorkspace
      [.update #[-1] (.error (.badDualRegularizer 0)), .solve z .factorizationFailed,
        .update #[4] (.error (.inertia 1 0))] w ∧
    ∃ t z, w.solve Sample.unitConstraint Sample.concave #[1, 2] none 1 =
      .ok (t, z, .factorizationFailed) := by
  have hrun : (Sample.concaveWorkspace.update Sample.unitConstraint Sample.concave #[4] >>=
      fun r => r.1.solve Sample.unitConstraint Sample.concave #[1, 2] none 1 >>= fun s =>
        (s.1.update Sample.unitConstraint Sample.concave #[-1]).map fun t => decide <|
          r.2 = .error (.inertia 1 0) ∧ s.2.2 = .factorizationFailed ∧
            t.2 = .error (.badDualRegularizer 0) ∧ t.1.method = .direct ∧
            t.1.fingerprint.admits Sample.unitConstraint Sample.concave = .ok true ∧
            t.1.validSolve #[1, 2] none 1 = true) = .ok true := by
    decide +kernel
  obtain ⟨⟨w₁, r₁⟩, h₁, hrun⟩ := Checked.bind_eq_ok.1 hrun
  obtain ⟨⟨w₂, z, r₂⟩, h₂, hrun⟩ := Checked.bind_eq_ok.1 hrun
  obtain ⟨⟨w₃, r₃⟩, h₃, hrun⟩ := Checked.exists_of_map hrun
  obtain ⟨rfl, rfl, rfl, hmethod, hadmits, hvalid⟩ := of_decide_eq_true hrun
  have hw := (((Past.none : Past anyMatrices _ [] _).update trivial h₁).solve trivial h₂).update
    trivial h₃
  obtain ⟨-, -, hfails⟩ := failures_leave_intact Sample.concave_new_eq hw
    Sample.unitConstraint Sample.concave
  exact ⟨w₃, z, hw, (hfails _ _ _ hmethod hadmits hvalid).2 ⟨#[4], .inertia 1 0, rfl⟩⟩

end Quasidefinite

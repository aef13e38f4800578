import Quasidefinite.Proofs.Factor.Course
import Quasidefinite.Proofs.Workspace.Failure

/-!
# What the counters count

A workspace counts the solves that were carried out and their iterations, and the direct method
also its factorizations; next to them it keeps the number of entries of the factors. The counters
are advanced in different places: by a solve before its answer is looked at, and by an update of
the direct method once the matrix has been factored again, whether that succeeded or not. No other
call advances them.

A run is a list of requests, each with matrices of its own, and it answers with what every call came
to (`Workspace.performAll`). `Workspace.Advances` says how far the counters have moved since some
earlier call; each call moves them by its own outcome (`Workspace.Steady.perform`), and a run by
those of its calls (`Workspace.Steady.performAll`). The number of entries of the factors does not
change because it depends on their frame alone (`Factorization.storedCount_congr`), which no
factorization over them changes.

None of this asks anything of the matrices or of the arithmetic.
-/

namespace Quasidefinite

variable {α : Type} [Scalar α]

/-! ## 1. Factorizations -/

omit [Scalar α] in
/-- Factors of one frame have as many entries. -/
theorem Factorization.storedCount_congr {F G : Factorization α}
    (h : F.factors.frame = G.factors.frame) : F.storedCount = G.storedCount := by
  simp only [Factors.frame, Prod.mk.injEq] at h
  obtain ⟨hstart, hcols, hsize⟩ := h
  rw [storedCount, storedCount, Sparse.storedCount, Sparse.storedCount, hstart, hcols, hsize]

omit [Scalar α] in
/-- New values do not reach the factors before the matrix is factored again. -/
theorem Factorization.factors_of_updateValues {F G : Factorization α} {indices : Array Nat}
    {values : Array α} (h : (F.updateValues indices values).run = .ok (.ok G)) :
    G.factors = F.factors := by
  obtain ⟨⟨⟩, -, h⟩ := Attempt.run_bind_eq_ok.1 h
  obtain ⟨⟨⟩, -, h⟩ := Attempt.run_bind_eq_ok.1 h
  obtain ⟨value, -, h⟩ := Attempt.run_bind_eq_ok.1 h
  obtain rfl := Attempt.run_pure_eq_ok.1 h
  rfl

/-! ## 2. Direct systems -/

/-- A solve that came to this status was carried out: it was neither refused nor left without
    factors. -/
def Status.carriedOut : Status → Bool
  | .success | .notConverged | .numericalError => true
  | .factorizationFailed | .invalidInput => false

namespace DirectSystem

variable {s t : DirectSystem α} {A P : Sparse α} {b z dual : Array α}

/-- A system that was built has counted its first factorization and the entries of its factors. -/
theorem info_of_new {ordering : FillOrdering} {reg : Regularization α} {settings : Settings α}
    (h : (new ordering A P reg settings).run = .ok (.ok s)) :
    ∃ entries, s.factorization.storedCount = .ok entries ∧
      s.info = { Diagnostics.blank with factorizations := 1, factorEntries := entries } := by
  unfold new at h
  obtain ⟨upper, -, h⟩ := Attempt.run_bind_eq_ok.1 h
  obtain ⟨engine, -, h⟩ := Attempt.run_bind_eq_ok.1 h
  obtain ⟨K, -, h⟩ := Attempt.run_bind_eq_ok.1 h
  obtain ⟨F, -, h⟩ := Attempt.run_bind_eq_ok.1 h
  obtain ⟨⟨⟩, -, h⟩ := Attempt.run_bind_eq_ok.1 h
  obtain ⟨entries, hentries, h⟩ := Attempt.run_bind_eq_ok.1 h
  obtain ⟨f, -, h⟩ := Attempt.run_bind_eq_ok.1 h
  obtain rfl := Attempt.run_pure_eq_ok.1 h
  exact ⟨entries, Attempt.run_lift_eq_ok.1 hentries, rfl⟩

/-- A direct solve is counted exactly if it was carried out, and leaves the factors alone. -/
theorem info_of_solve {status : Status} (h : s.solve b = .ok (t, z, status)) :
    (status.carriedOut = false ∧ t = s) ∨
      (status.carriedOut = true ∧ t.factorization = s.factorization ∧
        ∃ iterations residual, t.info = s.info.recordSolve iterations residual) := by
  rcases cases_solve h with
    ⟨-, rfl, -, rfl⟩ | ⟨r, -, -, -, rfl, ⟨-, -, rfl⟩ | ⟨-, -, rfl⟩⟩
  · exact .inl ⟨rfl, rfl⟩
  · exact .inr ⟨rfl, rfl, r.steps, r.norm, rfl⟩
  · exact .inr ⟨rfl, rfl, r.steps, r.norm, rfl⟩

theorem info_of_writeDual {result : Except SystemError Unit}
    (h : s.writeDual dual = .ok (t, result)) :
    t.info = s.info ∧ t.factorization.factors = s.factorization.factors := by
  unfold writeDual at h
  obtain ⟨written, hwritten, h⟩ := Checked.bind_eq_ok.1 h
  cases written with
  | error e =>
    cases h
    exact ⟨rfl, rfl⟩
  | ok F =>
    obtain ⟨kkt, -, h⟩ := Checked.bind_eq_ok.1 h
    cases h
    exact ⟨rfl, Factorization.factors_of_updateValues hwritten⟩

/-- Factoring again is counted, whether it succeeds or not, and keeps the frame of the factors. -/
theorem info_of_refactor {result : Except SystemError Unit}
    (h : s.refactor = .ok (t, result)) :
    t.info = { s.info with factorizations := s.info.factorizations + 1 } ∧
      t.factorization.factors.frame = s.factorization.factors.frame := by
  obtain ⟨⟨F, swept⟩, hF, h⟩ := Checked.bind_eq_ok.1 h
  obtain ⟨⟨factors, failed⟩, hfactor, hF⟩ := Checked.bind_eq_ok.1 hF
  cases hF
  cases h
  exact ⟨rfl, FactorPlan.frame_of_factor hfactor⟩

/-- A direct update counts a factorization exactly if it passed its validation, and keeps the number
    of entries. -/
theorem Linked.info_of_update (hs : s.Linked) {result : Except SystemError Unit}
    (h : s.update A P dual = .ok (t, result)) :
    (passed result = false ∧ t = s) ∨
      (passed result = true ∧ t.Linked ∧
        t.info = { s.info with factorizations := s.info.factorizations + 1 } ∧
        t.factorization.storedCount = s.factorization.storedCount) := by
  rcases cases_update h with ⟨rfl, rfl⟩ | ⟨e, hwrite, -⟩ | ⟨v, hwrite, hrefactor⟩
  · exact .inl ⟨rfl, rfl⟩
  · cases (hs.writeDual hwrite).1
  · obtain ⟨-, hv⟩ := hs.writeDual hwrite
    obtain ⟨hinfo, hfactors⟩ := info_of_writeDual hwrite
    obtain ⟨hcounted, hframe⟩ := info_of_refactor hrefactor
    refine .inr ⟨(usable_of_refactor hrefactor).2, hv.refactor hrefactor, hinfo ▸ hcounted, ?_⟩
    exact Factorization.storedCount_congr (hfactors ▸ hframe)

end DirectSystem

/-! ## 3. Indirect systems -/

namespace IndirectSystem

variable {s t : IndirectSystem α} {A P : Sparse α} {b z dual : Array α}

theorem info_of_updatePreconditioner (h : s.updatePreconditioner A P = .ok t) :
    t.info = s.info := by
  obtain ⟨op, -, h⟩ := Checked.bind_eq_ok.1 h
  obtain ⟨diag, -, h⟩ := Checked.bind_eq_ok.1 h
  cases h
  rfl

theorem info_of_new {reg : Regularization α} {settings : Settings α}
    (h : new A P reg settings = .ok s) : s.info = Diagnostics.blank := by
  obtain ⟨f, -, h⟩ := Checked.bind_eq_ok.1 h
  have hinfo := info_of_updatePreconditioner h
  exact hinfo

/-- An indirect solve is always carried out and counted. -/
theorem info_of_solve {warm : Option (Array α)} {tol : α} {status : Status}
    (h : s.solve A P b warm tol = .ok (t, z, status)) :
    status.carriedOut = true ∧
      ∃ iterations residual, t.info = s.info.recordSolve iterations residual := by
  obtain ⟨q, x₀, result, x, work, -, -, rfl, houtcome⟩ := cases_solve h
  refine ⟨?_, result.iterations, result.residual, rfl⟩
  rcases houtcome with ⟨-, -, rfl⟩ | ⟨-, -, rfl⟩
  · cases result.converged <;> rfl
  · rfl

theorem info_of_update {result : Except SystemError Unit}
    (h : s.update A P dual = .ok (t, result)) : t.info = s.info := by
  rcases cases_update h with ⟨rfl, -⟩ | ⟨-, -, -, h⟩
  · rfl
  · have hinfo := info_of_updatePreconditioner h
    exact hinfo

end IndirectSystem

/-! ## 4. Runs -/

/-- A call of a workspace, with matrices of its own. -/
structure Request (α : Type) where
  /-- The constraint matrix. -/
  constraint : Sparse α
  /-- The quadratic term. -/
  quadratic : Sparse α
  /-- What is asked for. -/
  call : Call α

/-- What a call of a workspace came to, as far as the counters are concerned. -/
inductive Outcome
  /-- A solve came to a status, and `iterations` stand recorded for the last solve after it. -/
  | solve (status : Status) (iterations : Nat)
  /-- An update came to a result. -/
  | update (result : Except SystemError Unit)
  deriving DecidableEq

namespace Outcome

/-- A solve that was carried out. -/
def solved : Outcome → Bool
  | .solve status _ => status.carriedOut
  | .update _ => false

/-- The iterations that stand recorded after a solve. -/
def iterations : Outcome → Nat
  | .solve _ iterations => iterations
  | .update _ => 0

/-- An update that passed its validation: it succeeded, or it failed for its factorization. -/
def updated : Outcome → Bool
  | .solve _ _ => false
  | .update result => passed result

end Outcome

namespace Workspace

/-- Answers a request. -/
def perform (w : Workspace α) (r : Request α) : Checked (Workspace α × Outcome) :=
  match r.call with
  | .solve b warm tol => do
    let (t, _, status) ← w.solve r.constraint r.quadratic b warm tol
    pure (t, .solve status t.info.lastIterations)
  | .update dual => do
    let (t, result) ← w.update r.constraint r.quadratic dual
    pure (t, .update result)

/-- Answers requests, one after the other. -/
def performAll (w : Workspace α) : List (Request α) → Checked (Workspace α × List Outcome)
  | [] => .ok (w, [])
  | r :: requests => do
    let (t, outcome) ← w.perform r
    let (u, outcomes) ← t.performAll requests
    pure (u, outcome :: outcomes)

/-- **How far the counters have moved** from `w` to `t` by calls with these outcomes. -/
structure Advances (w : Workspace α) (outcomes : List Outcome) (t : Workspace α) : Prop where
  method_eq : t.method = w.method
  solves_eq : t.info.solves = w.info.solves + outcomes.countP Outcome.solved
  total_eq : t.info.totalIterations =
    w.info.totalIterations + ((outcomes.filter Outcome.solved).map Outcome.iterations).sum
  factorizations_eq : t.info.factorizations = w.info.factorizations +
    if w.method = .direct then outcomes.countP Outcome.updated else 0
  entries_eq : t.info.factorEntries = w.info.factorEntries

namespace Advances

variable {w t u : Workspace α} {outcomes outcomes' : List Outcome}

omit [Scalar α] in
theorem refl (w : Workspace α) : Advances w [] w := ⟨rfl, rfl, rfl, by simp, rfl⟩

omit [Scalar α] in
theorem trans (h : Advances w outcomes t) (h' : Advances t outcomes' u) :
    Advances w (outcomes ++ outcomes') u where
  method_eq := h'.method_eq.trans h.method_eq
  solves_eq := by
    rw [h'.solves_eq, h.solves_eq, List.countP_append, Nat.add_assoc]
  total_eq := by
    rw [h'.total_eq, h.total_eq, List.filter_append, List.map_append, List.sum_append,
      Nat.add_assoc]
  factorizations_eq := by
    rw [h'.factorizations_eq, h.factorizations_eq, h.method_eq, List.countP_append, Nat.add_assoc]
    split <;> rfl
  entries_eq := h'.entries_eq.trans h.entries_eq

omit [Scalar α] in
/-- A solve that was not carried out moves nothing. -/
theorem of_not_solved {status : Status} (hstatus : status.carriedOut = false) (k : Nat) :
    Advances w [.solve status k] w := by
  refine ⟨rfl, ?_, ?_, ?_, rfl⟩ <;> simp [Outcome.solved, Outcome.updated, hstatus]

omit [Scalar α] in
/-- A solve that was carried out moves the counters of solves. -/
theorem of_solved {status : Status} (hstatus : status.carriedOut = true)
    (hmethod : t.method = w.method) {iterations : Nat} {residual : α}
    (hinfo : t.info = w.info.recordSolve iterations residual) :
    Advances w [.solve status t.info.lastIterations] t := by
  refine ⟨hmethod, ?_, ?_, ?_, ?_⟩ <;>
    simp [hinfo, Diagnostics.recordSolve, Outcome.solved, Outcome.updated, Outcome.iterations,
      hstatus]

omit [Scalar α] in
/-- An update that was refused moves nothing. -/
theorem of_not_passed {result : Except SystemError Unit} (hpassed : passed result = false) :
    Advances w [.update result] w := by
  refine ⟨rfl, ?_, ?_, ?_, rfl⟩ <;> simp [Outcome.solved, Outcome.updated, hpassed]

omit [Scalar α] in
/-- An update of a direct system that passed its validation moves the counter of factorizations. -/
theorem of_refactored {s t : DirectSystem α} {result : Except SystemError Unit}
    (hpassed : passed result = true)
    (hinfo : t.info = { s.info with factorizations := s.info.factorizations + 1 }) :
    Advances (.direct s) [.update result] (.direct t) := by
  refine ⟨rfl, ?_, ?_, ?_, ?_⟩ <;>
    simp [info, method, hinfo, Outcome.solved, Outcome.updated, hpassed]

omit [Scalar α] in
/-- No update of an indirect system moves a counter. -/
theorem of_indirect {s t : IndirectSystem α} (hinfo : t.info = s.info)
    (result : Except SystemError Unit) :
    Advances (.indirect s) [.update result] (.indirect t) := by
  refine ⟨rfl, ?_, ?_, ?_, ?_⟩ <;> simp [info, method, hinfo, Outcome.solved]

end Advances

/-- The entries that are noted are those of the factors, and new values find their places. -/
def Steady : Workspace α → Prop
  | .direct s => s.Linked ∧ s.factorization.storedCount = .ok s.info.factorEntries
  | .indirect _ => True

namespace Steady

variable {w t : Workspace α} {A P : Sparse α}

/-- **A solve moves the counters by its outcome.** -/
theorem solve (hw : w.Steady) {b z : Array α} {warm : Option (Array α)} {tol : α}
    {status : Status} (h : w.solve A P b warm tol = .ok (t, z, status)) :
    t.Steady ∧ Advances w [.solve status t.info.lastIterations] t := by
  rcases cases_solve h with ⟨rfl, -, rfl⟩ | ⟨-, -, h⟩
  · exact ⟨hw, .of_not_solved rfl _⟩
  cases w with
  | direct s =>
    obtain ⟨t, hsystem, rfl⟩ := solveChecked_direct_eq_ok.1 h
    obtain ⟨hlinked, -⟩ := hw.1.solve hsystem
    rcases DirectSystem.info_of_solve hsystem with
      ⟨hstatus, rfl⟩ | ⟨hstatus, hfactors, iterations, residual, hinfo⟩
    · exact ⟨hw, .of_not_solved hstatus _⟩
    · refine ⟨⟨hlinked, ?_⟩, .of_solved hstatus rfl hinfo⟩
      rw [hfactors, hinfo]
      exact hw.2
  | indirect s =>
    obtain ⟨t, hsystem, rfl⟩ := solveChecked_indirect_eq_ok.1 h
    obtain ⟨hstatus, iterations, residual, hinfo⟩ := IndirectSystem.info_of_solve hsystem
    exact ⟨trivial, .of_solved hstatus rfl hinfo⟩

/-- **An update moves the counters by its outcome.** -/
theorem update (hw : w.Steady) {dual : Array α} {result : Except SystemError Unit}
    (h : w.update A P dual = .ok (t, result)) : t.Steady ∧ Advances w [.update result] t := by
  rcases cases_update h with ⟨rfl, hpassed⟩ | ⟨-, h⟩
  · exact ⟨hw, .of_not_passed hpassed⟩
  cases w with
  | direct s =>
    obtain ⟨t, hsystem, rfl⟩ := updateChecked_direct_eq_ok.1 h
    rcases hw.1.info_of_update hsystem with ⟨hpassed, rfl⟩ | ⟨hpassed, hlinked, hinfo, hcount⟩
    · exact ⟨hw, .of_not_passed hpassed⟩
    · refine ⟨⟨hlinked, ?_⟩, .of_refactored hpassed hinfo⟩
      rw [hcount, hinfo]
      exact hw.2
  | indirect s =>
    obtain ⟨t, hsystem, rfl⟩ := updateChecked_indirect_eq_ok.1 h
    exact ⟨trivial, .of_indirect (IndirectSystem.info_of_update hsystem) result⟩

/-- **A request moves the counters by its outcome**, whatever the request. -/
theorem perform (hw : w.Steady) {r : Request α} {outcome : Outcome}
    (h : w.perform r = .ok (t, outcome)) : t.Steady ∧ Advances w [outcome] t := by
  unfold Workspace.perform at h
  split at h
  · obtain ⟨⟨t, z, status⟩, hsolve, h⟩ := Checked.bind_eq_ok.1 h
    cases h
    exact hw.solve hsolve
  · obtain ⟨⟨t, result⟩, hupdate, h⟩ := Checked.bind_eq_ok.1 h
    cases h
    exact hw.update hupdate

/-- **A run moves the counters by the outcomes of its calls.** -/
theorem performAll (hw : w.Steady) {requests : List (Request α)} {outcomes : List Outcome}
    (h : w.performAll requests = .ok (t, outcomes)) : t.Steady ∧ Advances w outcomes t := by
  induction requests generalizing w outcomes with
  | nil =>
    cases h
    exact ⟨hw, .refl _⟩
  | cons r requests ih =>
    obtain ⟨⟨u, outcome⟩, hperform, h⟩ := Checked.bind_eq_ok.1 h
    obtain ⟨⟨v, outcomes⟩, hrest, h⟩ := Checked.bind_eq_ok.1 h
    cases h
    obtain ⟨hu, hfirst⟩ := hw.perform hperform
    obtain ⟨hv, hthen⟩ := ih hu hrest
    exact ⟨hv, hfirst.trans hthen⟩

end Steady

/-! ## 5. The counters of a workspace -/

variable {w₀ w : Workspace α}

/-- The counters of a workspace that has answered no call. -/
theorem steady_of_new {ordering : FillOrdering} {A P : Sparse α} {reg : Regularization α}
    {settings : Settings α} (h : (new ordering A P reg settings).run = .ok (.ok w)) :
    w.Steady ∧ w.info.solves = 0 ∧ w.info.totalIterations = 0 ∧
      w.info.factorizations = (if w.method = .direct then 1 else 0) ∧
      (w.method = .indirect → w.info.factorEntries = 0) := by
  rcases cases_new h with ⟨s, rfl, hs⟩ | ⟨s, rfl, hs⟩
  · obtain ⟨entries, hentries, hinfo⟩ := DirectSystem.info_of_new hs
    refine ⟨⟨(DirectSystem.linked_of_new hs).1, ?_⟩, ?_⟩
    · rw [hentries, hinfo]
    · simp [info, method, hinfo, Diagnostics.blank]
  · have hinfo := IndirectSystem.info_of_new hs
    refine ⟨trivial, ?_⟩
    simp [info, method, hinfo, Diagnostics.blank]

/-- **The counters count what happened.** After construction and any run of requests, each with
    whatever matrices: the solves that are counted are those that came to a success, did not
    converge or came to a numerical error, and the iterations are the sum of those recorded by
    exactly these solves. The direct method counts one factorization for its construction and one
    for every update that succeeded or failed for its factorization or its inertia, and the number
    of entries is at all times that of the factors and the one noted at construction. The indirect
    method counts neither. -/
theorem counters_count {ordering : FillOrdering} {A P : Sparse α} {reg : Regularization α}
    {settings : Settings α} (hnew : (new ordering A P reg settings).run = .ok (.ok w₀))
    {requests : List (Request α)} {outcomes : List Outcome}
    (hrun : w₀.performAll requests = .ok (w, outcomes)) :
    w.info.solves = outcomes.countP Outcome.solved ∧
    w.info.totalIterations = ((outcomes.filter Outcome.solved).map Outcome.iterations).sum ∧
    (∀ s, w = .direct s → s.info.factorizations = 1 + outcomes.countP Outcome.updated ∧
      s.info.factorEntries = w₀.info.factorEntries ∧
      s.factorization.storedCount = .ok s.info.factorEntries) ∧
    ∀ s, w = .indirect s → s.info.factorizations = 0 ∧ s.info.factorEntries = 0 := by
  obtain ⟨hsteady, hsolves, htotal, hfactorizations, hentries⟩ := steady_of_new hnew
  obtain ⟨hw, hadvances⟩ := hsteady.performAll hrun
  have hmethod := hadvances.method_eq
  refine ⟨?_, ?_, ?_, ?_⟩
  · rw [hadvances.solves_eq, hsolves, Nat.zero_add]
  · rw [hadvances.total_eq, htotal, Nat.zero_add]
  · rintro s rfl
    refine ⟨?_, hadvances.entries_eq, hw.2⟩
    have hdirect : w₀.method = .direct := hmethod.symm
    have hcount := hadvances.factorizations_eq
    rwa [hfactorizations, if_pos hdirect, if_pos hdirect] at hcount
  · rintro s rfl
    have hdirect : w₀.method ≠ .direct := fun h => Method.noConfusion (hmethod.trans h)
    have hcount := hadvances.factorizations_eq
    rw [hfactorizations, if_neg hdirect, if_neg hdirect] at hcount
    exact ⟨hcount, hadvances.entries_eq.trans (hentries hmethod.symm)⟩

end Workspace

namespace Sample

/-- Solves and updates with the matrices of the concave problem. -/
def concaveRequests : List (Request ℚ) :=
  [.solve #[1, 2] none 1, .update #[4], .solve #[1, 2] none 1, .update #[-1], .update #[1 / 4],
    .solve #[1, 3] none 1].map fun call =>
      { constraint := unitConstraint, quadratic := concave, call }

/-- What they come to. -/
def concaveOutcomes : List Outcome :=
  [.solve .success 0, .update (.error (.inertia 1 0)), .solve .factorizationFailed 0,
    .update (.error (.badDualRegularizer 0)), .update (.ok ()), .solve .success 0]

end Sample

open scoped Scalar in
/-- Of three solves and three updates of the workspace for the concave problem the two solves that
    found usable factors are counted, and the two updates that were not refused, although one of
    them failed for its inertia. -/
theorem Workspace.counters_count_concave : ∃ s,
    Sample.concaveWorkspace.performAll Sample.concaveRequests =
      .ok (.direct s, Sample.concaveOutcomes) ∧
    s.info.solves = 2 ∧ s.info.totalIterations = 0 ∧ s.info.factorizations = 3 ∧
    s.factorization.storedCount = .ok 3 := by
  have hrun : (Sample.concaveWorkspace.performAll Sample.concaveRequests).map
      (fun r => (r.1.method, r.2)) = .ok (.direct, Sample.concaveOutcomes) := by
    decide +kernel
  obtain ⟨⟨w, outcomes⟩, hrun, houtcomes⟩ := Checked.exists_of_map hrun
  obtain ⟨hmethod, rfl⟩ := Prod.mk.inj houtcomes
  obtain ⟨hsolves, htotal, hdirect, -⟩ := counters_count Sample.concave_new_eq hrun
  cases w with
  | indirect s => cases hmethod
  | direct s =>
    obtain ⟨hfactorizations, hentries, hcount⟩ := hdirect s rfl
    have hthree : Sample.concaveWorkspace.info.factorEntries = 3 := by decide +kernel
    rw [hentries, hthree] at hcount
    exact ⟨s, hrun, hsolves, htotal, hfactorizations, hcount⟩

end Quasidefinite

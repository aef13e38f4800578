import Quasidefinite.Proofs.Workspace.Session

/-!
# Workspaces forget their past

Two direct systems for the same data, settings and dual regularizer may differ in what their
factors, counters and scratch space have gone through. As long as they agree on whether their
factors are usable they are `Alike`: every call has the same outcome in both of them and leaves
them alike (`Alike.exists_solve`, `Alike.exists_update`). An update makes a workspace with any past
alike to one that was built for the new regularizer.
-/

namespace Quasidefinite

variable {α : Type} [Scalar α]

namespace DirectSystem

variable {ordering : FillOrdering} {A P U : Sparse α} {primal : α} {settings : Settings α}
  {dual : Array α} {s t : DirectSystem α}

/-! ## 1. Solves with the same factors -/

/-- A favourable verdict is one on a sweep without a bad pivot. -/
theorem firstBad_of_verdict {F : Factorization α} {n : Nat} (h : verdict F n = .ok ()) :
    F.plan.firstBad = none :=
  Factorization.firstBad_of_outcome (outcome_of_verdict h)

/-- Usable factors are decided by the data, the regularizers and the settings. -/
theorem Invariant.factorization_eq_of_usable
    (hs : Invariant ordering A P U primal settings dual s)
    (ht : Invariant ordering A P U primal settings dual t) (husable : s.usable = true)
    (husable' : t.usable = true) : s.factorization = t.factorization := by
  obtain ⟨hholds, hverdict⟩ := hs.usable_iff husable
  exact hs.factorization_eq ht hholds (ht.usable_iff husable').1 (firstBad_of_verdict hverdict)

/-- Usable factors refine a solution in the same way, whatever the scratch space holds. -/
theorem Invariant.solveRefined_eq (hs : Invariant ordering A P U primal settings dual s)
    (ht : Invariant ordering A P U primal settings dual t) (husable : s.usable = true)
    (husable' : t.usable = true) (b : Array α) : s.solveRefined b = t.solveRefined b := by
  have hscratch : s.scratch.size = t.scratch.size := hs.size_scratch.trans ht.size_scratch.symm
  rw [solveRefined, solveRefined, hs.settings_eq, ht.settings_eq, hs.kkt_eq ht,
    hs.factorization_eq_of_usable ht husable husable']
  refine bind_congr fun x => ?_
  rw [Factorization.refine_congr _ _ _ hscratch, Refinement.residual_congr hscratch]

end DirectSystem

/-! ## 2. Workspaces that are alike -/

namespace Workspace

open DirectSystem

/-- Two workspaces for the direct method hold the same data and were given the same dual
    regularizer last, and their factors are usable or not. -/
inductive Alike (ordering : FillOrdering) (A P U : Sparse α) (primal : α) (settings : Settings α) :
    Workspace α → Workspace α → Prop
  | intro {s t : DirectSystem α} {written : Array α}
      (hs : Invariant ordering A P U primal settings written s)
      (ht : Invariant ordering A P U primal settings written t) (husable : s.usable = t.usable) :
      Alike ordering A P U primal settings (.direct s) (.direct t)

/-- The solve was carried out: its arguments were valid and its factors usable. -/
def CarriedOut (status : Status) : Prop := status = .success ∨ status = .numericalError

/-- A solve with usable factors is carried out, whether its solution is finite or not. -/
theorem carriedOut_answer (x b : Array α) :
    CarriedOut (if Vec.isFinite x then (x, Status.success) else (b, .numericalError)).2 := by
  by_cases hfinite : Vec.isFinite x = true
  · rw [if_pos hfinite]
    exact .inl rfl
  · rw [if_neg hfinite]
    exact .inr rfl

namespace Alike

variable {ordering : FillOrdering} {A P U : Sparse α} {primal : α} {settings : Settings α}
  {v w : Workspace α} (h : Alike ordering A P U primal settings v w)

include h

/-- **A solve has the same outcome in workspaces that are alike**, and leaves them alike. If it is
    not carried out, it leaves them as they are. -/
theorem exists_solve (b : Array α) (warm : Option (Array α)) (tol : α) :
    ∃ v' w' x status, v.solve A P b warm tol = .ok (v', x, status) ∧
      w.solve A P b warm tol = .ok (w', x, status) ∧
      Alike ordering A P U primal settings v' w' ∧
      (CarriedOut status → v'.info.lastIterations = w'.info.lastIterations ∧
        v'.info.lastResidual = w'.info.lastResidual) ∧
      (¬ CarriedOut status → v' = v ∧ w' = w) := by
  obtain ⟨hs, ht, husable⟩ := id h
  rename_i s t written
  have hvalid : (direct s).validSolve b warm tol = (direct t).validSolve b warm tol := by
    simp only [validSolve, fingerprint, hs.fingerprint_eq, ht.fingerprint_eq]
  by_cases hvalid_s : (direct s).validSolve b warm tol = true
  · have hvalid_t := hvalid ▸ hvalid_s
    by_cases husable_s : s.usable = true
    · have husable_t := husable ▸ husable_s
      have hb := (hs.validSolve_iff.1 hvalid_s).1
      obtain ⟨r, hr, hended⟩ := hs.exists_solveRefined hb (fun _ => True)
        (fun _ _ => trivial) fun _ _ _ _ _ _ _ _ => trivial
      have hr' := hs.solveRefined_eq ht husable_s husable_t b ▸ hr
      have hscratch := hended.size_residual.trans hs.cols_eq
      refine ⟨_, _, _, _, hs.workspace_solve_of_valid hvalid_s (hs.solve_of_usable husable_s hb hr),
        ht.workspace_solve_of_valid hvalid_t (ht.solve_of_usable husable_t hb hr'),
        ⟨hs.with_info rfl hscratch, ht.with_info rfl hscratch, husable⟩, fun _ => ⟨rfl, rfl⟩,
        fun hrefused => absurd (carriedOut_answer r.x b) hrefused⟩
    · have husable_t : ¬ t.usable = true := husable ▸ husable_s
      refine ⟨_, _, b, _,
        hs.workspace_solve_of_valid hvalid_s (Invariant.solve_of_not_usable husable_s b),
        ht.workspace_solve_of_valid hvalid_t (Invariant.solve_of_not_usable husable_t b), h, ?_,
        fun _ => ⟨rfl, rfl⟩⟩
      rintro (hstatus | hstatus) <;> cases hstatus
  · have hvalid_t : ¬ (direct t).validSolve b warm tol = true := hvalid ▸ hvalid_s
    refine ⟨_, _, b, _, hs.workspace_solve_of_not_valid hvalid_s,
      ht.workspace_solve_of_not_valid hvalid_t, h, ?_, fun _ => ⟨rfl, rfl⟩⟩
    rintro (hstatus | hstatus) <;> cases hstatus

/-- **An update has the same result in workspaces that are alike**, and leaves them alike. -/
theorem exists_update [ReflexiveScalar α] (hprimal : Scalar.isFinite primal = true)
    (dual : Array α) :
    ∃ v' w' result, v.update A P dual = .ok (v', result) ∧
      w.update A P dual = .ok (w', result) ∧ Alike ordering A P U primal settings v' w' := by
  obtain ⟨hs, ht, husable⟩ := id h
  rename_i s t written
  cases hcheck : (direct s).checkUpdate dual with
  | error e =>
    have hcheck' : (direct t).checkUpdate dual = .error e := by
      rw [← hcheck]
      simp only [checkUpdate, fingerprint, hs.fingerprint_eq, ht.fingerprint_eq]
    exact ⟨_, _, _, hs.workspace_update_of_error hcheck, ht.workspace_update_of_error hcheck', h⟩
  | ok u =>
    obtain ⟨hsize, hpositive⟩ := hs.checkUpdate_eq_ok.1 hcheck
    obtain ⟨s', hupdate, hs', hholds, husable_s⟩ :=
      hs.exists_workspace_update hprimal hsize hpositive
    obtain ⟨t', hupdate', ht', hholds', husable_t⟩ :=
      ht.exists_workspace_update hprimal hsize hpositive
    have hverdict := hs'.verdict_eq ht' hholds hholds'
    rw [← hverdict] at hupdate' husable_t
    exact ⟨_, _, _, hupdate, hupdate', hs', ht', husable_s.trans husable_t.symm⟩

/-- **Workspaces that are alike stay so over whole runs.** -/
theorem exists_run [ReflexiveScalar α] (hprimal : Scalar.isFinite primal = true)
    (calls : List (Call α)) (dual : Array α) :
    ∃ v' w' dual', Session.run A P ⟨v, dual⟩ calls = .ok ⟨v', dual'⟩ ∧
      Session.run A P ⟨w, dual⟩ calls = .ok ⟨w', dual'⟩ ∧
      Alike ordering A P U primal settings v' w' := by
  induction calls generalizing v w dual with
  | nil => exact ⟨v, w, dual, rfl, rfl, h⟩
  | cons c calls ih =>
    cases c with
    | solve b warm tol =>
      obtain ⟨v', w', x, status, hv, hw, halike, -⟩ := h.exists_solve b warm tol
      obtain ⟨v'', w'', dual', hv', hw', hend⟩ := ih halike dual
      refine ⟨v'', w'', dual', ?_, ?_, hend⟩
      · rw [Session.run, List.foldlM_cons, Session.call_solve hv]
        exact hv'
      · rw [Session.run, List.foldlM_cons, Session.call_solve hw]
        exact hw'
    | update new =>
      obtain ⟨v', w', result, hv, hw, halike⟩ := h.exists_update hprimal new
      obtain ⟨v'', w'', dual', hv', hw', hend⟩ := ih halike (if result.isOk then new else dual)
      refine ⟨v'', w'', dual', ?_, ?_, hend⟩
      · rw [Session.run, List.foldlM_cons, Session.call_update hv]
        exact hv'
      · rw [Session.run, List.foldlM_cons, Session.call_update hw]
        exact hw'

end Alike

/-! ## 3. Updates and construction -/

/-- **An update leaves no trace of the past in the factors.** After any calls, an update with a
    valid regularizer answers what construction with that regularizer answers. If it succeeds, the
    assembled matrix, the factors and the number of their entries are those of the workspace that
    is constructed, and so are the answers to all later calls; a later solve that is carried out
    takes as many iterations and leaves the same residual, and one that is not leaves either
    workspace as it was. -/
theorem update_eq_new [ReflexiveScalar α] {ordering : FillOrdering} {A P : Sparse α}
    (hA : A.checkFormat.run = .ok (.ok ())) (hP : P.checkFormat.run = .ok (.ok ()))
    {reg : Regularization α} {settings : Settings α} (hmethod : settings.method = .direct)
    {w : Workspace α} (hnew : (new ordering A P reg settings).run = .ok (.ok w))
    (reg' : Regularization α) (hprimal : reg'.primal = reg.primal) (hdual : reg'.dual.size = A.rows)
    (calls : List (Call α)) :
    ∃ (s : Session α) (t fresh : DirectSystem α) (result : Except SystemError Unit),
      Session.run A P ⟨w, reg.dual⟩ calls = .ok s ∧
      s.workspace.update A P reg'.dual = .ok (.direct t, result) ∧
      (new ordering A P reg' settings).run = .ok (result.map fun _ => .direct fresh) ∧
      (result = .ok () →
        t.kkt = fresh.kkt ∧
        t.factorization.factors.positive = fresh.factorization.factors.positive ∧
        t.info.factorEntries = fresh.info.factorEntries ∧
        ∀ later : List (Call α), ∃ u v : Session α,
          Session.run A P ⟨.direct t, reg'.dual⟩ later = .ok u ∧
          Session.run A P ⟨.direct fresh, reg'.dual⟩ later = .ok v ∧
          ∀ (b : Array α) (warm : Option (Array α)) (tol : α), ∃ u' v' x status,
            u.workspace.solve A P b warm tol = .ok (u', x, status) ∧
            v.workspace.solve A P b warm tol = .ok (v', x, status) ∧
            (CarriedOut status → u'.info.lastIterations = v'.info.lastIterations ∧
              u'.info.lastResidual = v'.info.lastResidual) ∧
            (¬ CarriedOut status → u' = u.workspace ∧ v' = v.workspace)) := by
  have hfinite := reg.isFinite_primal
  obtain ⟨U, hdata, hstart⟩ := Session.OfDirect.exists_of_new (Sparse.wellFormed_of_checkFormat hA)
    (Sparse.wellFormed_of_checkFormat hP) hmethod hnew
  obtain ⟨s, hrun, ⟨h, -⟩⟩ := hstart.exists_run hfinite calls
  obtain ⟨t, hupdate, ht, hholds, husable⟩ :=
    h.exists_workspace_update hfinite hdual reg'.dual_ok
  obtain ⟨fresh, hfresh, hholds', husable', hnew'⟩ := Session.exists_new_direct hdata
    (admissible_of_new hnew).1 hdual hmethod ordering
  rw [hprimal] at hfresh
  have hverdict := ht.verdict_eq hfresh hholds hholds'
  refine ⟨_, t, fresh, _, hrun, hupdate, hverdict ▸ hnew', fun hok => ?_⟩
  rw [hok] at husable
  rw [← hverdict, hok] at husable'
  have hfactorization := ht.factorization_eq_of_usable hfresh husable husable'
  refine ⟨ht.kkt_eq hfresh, by rw [hfactorization], ht.factorEntries_eq hfresh, fun later => ?_⟩
  have halike := Alike.intro ht hfresh (husable.trans husable'.symm)
  obtain ⟨u, v, dual, hu, hv, hend⟩ := halike.exists_run hfinite later reg'.dual
  refine ⟨_, _, hu, hv, fun b warm tol => ?_⟩
  obtain ⟨u', v', x, status, hsolve, hsolve', -, hinfo, hrefused⟩ := hend.exists_solve b warm tol
  exact ⟨u', v', x, status, hsolve, hsolve', hinfo, hrefused⟩

open scoped Scalar in
/-- The workspace for the small problem, updated after a solve and an update that is refused, has
    the matrix and the factor entries of the one constructed for the new regularizer. -/
theorem update_eq_new_sample : ∃ s t fresh,
    Session.run Sample.constraint Sample.quadratic ⟨Sample.workspace, #[3]⟩
      [.solve #[1, 2, 3] none 1, .update #[-1]] = .ok s ∧
    s.workspace.update Sample.constraint Sample.quadratic #[2] = .ok (.direct t, .ok ()) ∧
    (new .minimumDegree Sample.constraint Sample.quadratic
      (Sample.regularization 2 two_pos) .standard).run = .ok (.ok (.direct fresh)) ∧
    t.kkt = fresh.kkt ∧ t.info.factorEntries = fresh.info.factorEntries := by
  obtain ⟨s, t, fresh, result, hrun, hupdate, hnew, hsame⟩ := update_eq_new Sample.constraint_ok
    Sample.quadratic_ok rfl Sample.new_eq
    (Sample.regularization 2 two_pos) rfl rfl
    [.solve #[1, 2, 3] none 1, .update #[-1]]
  have hanswer : (new .minimumDegree Sample.constraint Sample.quadratic
      (Sample.regularization 2 two_pos) .standard).answer?.isSome := by
    decide +kernel
  obtain ⟨w, hw⟩ := Option.isSome_iff_exists.1 hanswer
  rw [Attempt.run_of_answer? hw] at hnew
  cases result with
  | ok u =>
    obtain ⟨hkkt, -, hentries, -⟩ := hsame rfl
    exact ⟨s, t, fresh, hrun, hupdate, Attempt.run_of_answer? hw ▸ hnew, hkkt, hentries⟩
  | error e => cases Except.ok.inj hnew

open scoped Scalar in
/-- The counters do show the past while no solve is carried out: a solve that is refused after a
    successful update leaves the iterations of the solve before the update, where a workspace that
    is constructed has none. -/
theorem refused_solve_shows_past :
    (Session.start .minimumDegree Sample.constraint Sample.quadratic
      (Sample.regularization 3 three_pos) { Settings.standard with refineAbsTol := -1 }
      [.solve #[1, 2, 3] none 1, .update #[2]]).answer?.map (fun s => (s.dual,
        (s.workspace.solve Sample.constraint Sample.quadratic #[1] none 1).map fun r =>
          (r.2.2, r.1.info.lastIterations))) = some (#[2], .ok (.invalidInput, 1)) ∧
    (Session.start .minimumDegree Sample.constraint Sample.quadratic
      (Sample.regularization 2 two_pos) { Settings.standard with refineAbsTol := -1 }
      []).answer?.map (fun s => (s.dual,
        (s.workspace.solve Sample.constraint Sample.quadratic #[1] none 1).map fun r =>
          (r.2.2, r.1.info.lastIterations))) = some (#[2], .ok (.invalidInput, 0)) := by
  decide +kernel

end Workspace

end Quasidefinite

import Quasidefinite.Proofs.Direct.Matching
import Quasidefinite.Proofs.Direct.Refinement

/-!
# What a direct system keeps

`DirectSystem.Invariant` says what holds of a direct system at all times: its matrix is the one
assembled from the data, the primal regularizer and the dual regularizer written last; its
factorization is one of that matrix under the order that the ordering chose at construction; and if
the factors are marked usable, they are those of that matrix. Construction establishes the
invariant (`Data.exists_new`), solves keep it (`Invariant.exists_solve`), and so does what an update
does once it has recognized the data (`Invariant.exists_rewrite`); both construction and update
come to the verdict that the factorization settles (`verdict`).
-/

namespace Quasidefinite

namespace DirectSystem

variable {α : Type} [Scalar α]

/-- The options under which the matrix of a system is factored. -/
def factorOptions (A : Sparse α) (settings : Settings α) : FactorOptions α :=
  Engine.options (expectedSigns A.cols A.rows) settings

/-- What a factorization comes to: the failure of its sweep, or the test of its signs. -/
def verdict (F : Factorization α) (n : Nat) : Except SystemError Unit := do
  (Factorization.outcome F.plan).mapError SystemError.factorization
  checkInertia F n

theorem eq_ok_of_isOk {e : Except SystemError Unit} (h : e.isOk = true) : e = .ok () := by
  cases e with
  | ok _ => rfl
  | error _ => cases h

theorem verdict_of_error {F : Factorization α} {n : Nat} {e : FactorError}
    (h : Factorization.outcome F.plan = .error e) : verdict F n = .error (.factorization e) := by
  rw [verdict, h]
  rfl

theorem verdict_of_ok {F : Factorization α} {n : Nat} (h : Factorization.outcome F.plan = .ok ()) :
    verdict F n = checkInertia F n := by
  rw [verdict, h]
  rfl

/-- A verdict never blames the matrices. -/
theorem verdict_ne_mismatch (F : Factorization α) (n : Nat) :
    verdict F n ≠ .error .matrixMismatch := by
  cases houtcome : Factorization.outcome F.plan with
  | error e =>
    rw [verdict_of_error houtcome]
    nofun
  | ok u =>
    rw [verdict_of_ok houtcome, checkInertia]
    split <;> nofun

/-- A favourable verdict is one on the sweep. -/
theorem outcome_of_verdict {F : Factorization α} {n : Nat} (h : verdict F n = .ok ()) :
    Factorization.outcome F.plan = .ok () := by
  cases houtcome : Factorization.outcome F.plan with
  | ok u => rfl
  | error e =>
    rw [verdict_of_error houtcome] at h
    cases h

/-- **The invariant of direct systems.** -/
structure Invariant (ordering : FillOrdering) (A P U : Sparse α) (primal : α)
    (settings : Settings α) (dual : Array α) (s : DirectSystem α) : Prop where
  data : Data A P U
  fingerprint_eq : s.fingerprint = ⟨A.rows, A.cols, A.rowIndex.size, P.rowIndex.size⟩
  primal_eq : s.primal = primal
  settings_eq : s.settings = settings
  assembled : Kkt.Assembled U A (fun v => v + primal) (fun i => (Vec.negate dual).getD i 0) s.kkt
  order_eq : ordering.order? s.kkt.matrix.pattern settings.denseScale = some s.factorization.perm
  of : Factorization.Of s.kkt.matrix (factorOptions A settings) s.factorization
  entries_eq : s.factorization.storedCount = .ok s.info.factorEntries
  size_scratch : s.scratch.size = A.rows + A.cols
  usable_iff : s.usable = true → s.factorization.Holds ∧ verdict s.factorization A.cols = .ok ()

/-! ## 1. Construction -/

theorem size_expectedSigns (n m : Nat) : (expectedSigns n m).size = n + m := by
  simp [expectedSigns]

namespace Data

variable {A P U : Sparse α} (h : Data A P U)

include h

/-- The regularized matrix is assembled. -/
theorem exists_assembleRegularized (reg : Regularization α) (hdual : reg.dual.size = A.rows) :
    ∃ K, assembleRegularized U A reg = .ok K ∧
      Kkt.Assembled U A (fun v => v + reg.primal) (fun i => (Vec.negate reg.dual).getD i 0) K := by
  obtain ⟨K, hK, hassembled⟩ := h.blocks.exists_assemble
  obtain ⟨L, hL, hassembled'⟩ := Kkt.Assembled.exists_addPrimal h.blocks hassembled reg.primal
  have hvalues : (Vec.negate reg.dual).size = A.rows := by simp [Vec.negate, hdual]
  obtain ⟨hset, hassembled''⟩ := Kkt.Assembled.setDual_eq h.blocks hassembled' hvalues
  refine ⟨_, ?_, hassembled''⟩
  unfold assembleRegularized
  rw [hK, Checked.ok_bind, hL, Checked.ok_bind, hset]

/-- Once its matrix has been assembled and factored, construction comes to the verdict on the
    factorization. -/
theorem run_new_of_factored {ordering : FillOrdering} {reg : Regularization α}
    {settings : Settings α} {engine : Engine}
    (hengine : Engine.ofName? settings.engine = some engine) {K : Kkt α}
    (hK : assembleRegularized U A reg = .ok K) {F : Factorization α}
    (hfactor : (engine.factor ordering K.matrix (expectedSigns A.cols A.rows) settings).run =
      .ok ((Factorization.outcome F.plan).map fun _ => F))
    {entries : Nat} (hentries : F.storedCount = .ok entries) :
    (new ordering A P reg settings).run = .ok ((verdict F A.cols).map fun _ =>
      { fingerprint := ⟨A.rows, A.cols, A.rowIndex.size, P.rowIndex.size⟩
        kkt := K
        factorization := F
        primal := reg.primal
        usable := true
        settings
        info := { Diagnostics.blank with factorizations := 1, factorEntries := entries }
        scratch := Vec.zeros (A.cols + A.rows) }) := by
  have hsettings : (Attempt.ofExcept SystemError.settings (Engine.ofSettings settings) :
      Attempt SystemError Engine).run = .ok (.ok engine) := by
    rw [Attempt.run_ofExcept, Engine.ofSettings, hengine]
    rfl
  have hfactor := Attempt.run_mapError_of_ok (f := SystemError.factorization) hfactor
  unfold new
  rw [Attempt.run_bind_of_ok _ (Attempt.run_lift_of_ok h.upperOf_eq),
    Attempt.run_bind_of_ok _ hsettings, Attempt.run_bind_of_ok _ (Attempt.run_lift_of_ok hK)]
  cases houtcome : Factorization.outcome F.plan with
  | error e =>
    rw [houtcome] at hfactor
    rw [Attempt.run_bind_of_error _ hfactor, verdict_of_error houtcome]
    rfl
  | ok u =>
    rw [houtcome] at hfactor
    rw [Attempt.run_bind_of_ok _ hfactor, verdict_of_ok houtcome]
    cases hinertia : checkInertia F A.cols with
    | error e =>
      rw [Attempt.run_bind_of_error _ (Attempt.run_ofExcept _ _)]
      rfl
    | ok u =>
      rw [Attempt.run_bind_of_ok _ (Attempt.run_ofExcept _ _),
        Attempt.run_bind_of_ok _ (Attempt.run_lift_of_ok hentries),
        Attempt.run_bind_of_ok _ (Attempt.run_lift_of_ok
          (Fingerprint.of_eq h.constraint.toShaped h.quadratic.toShaped))]
      rfl

/-- **Construction comes to the verdict on its factorization**, and answers with a system in good
    form if that is favourable. -/
theorem exists_new (ordering : FillOrdering) (reg : Regularization α) {settings : Settings α}
    (hengine : (Engine.ofName? settings.engine).isSome) (hdual : reg.dual.size = A.rows) :
    ∃ s, Invariant ordering A P U reg.primal settings reg.dual s ∧ s.factorization.Holds ∧
      s.usable = (verdict s.factorization A.cols).isOk ∧
      (new ordering A P reg settings).run =
        .ok ((verdict s.factorization A.cols).map fun _ => s) := by
  obtain ⟨K, hK, hassembled⟩ := h.exists_assembleRegularized reg hdual
  have htriangle := Kkt.Assembled.triangle h.blocks hassembled
  have hcols : K.matrix.cols = A.rows + A.cols := hassembled.layout.cols_eq
  obtain ⟨perm, hchoose, hsize, hinverse, horder⟩ := Factorization.exists_choosePerm ordering
    (factorOptions A settings) htriangle (by nofun)
  have horder : ordering.order? K.matrix.pattern settings.denseScale = some perm := horder rfl
  obtain ⟨F, hperm, hof, hholds, hnew⟩ := Factorization.exists_new htriangle
    (Kkt.Assembled.fullColumns h.blocks hassembled) hchoose hsize hinverse
    (fun signs hsigns => by
      obtain rfl : expectedSigns A.cols A.rows = signs := Option.some.inj hsigns
      rw [size_expectedSigns, hcols, Nat.add_comm])
  obtain ⟨engine, hengine⟩ := Option.isSome_iff_exists.1 hengine
  have hfactor : (engine.factor ordering K.matrix (expectedSigns A.cols A.rows) settings).run =
      .ok ((Factorization.outcome F.plan).map fun _ => F) := by
    cases engine
    exact hnew
  have hrun := h.run_new_of_factored hengine hK hfactor hof.storedCount_eq
  let s : DirectSystem α :=
    { fingerprint := ⟨A.rows, A.cols, A.rowIndex.size, P.rowIndex.size⟩
      kkt := K
      factorization := F
      primal := reg.primal
      usable := (verdict F A.cols).isOk
      settings
      info := { Diagnostics.blank with
        factorizations := 1
        factorEntries := F.plan.colStarts.getD F.plan.matrix.cols 0 + F.plan.matrix.cols }
      scratch := Vec.zeros (A.cols + A.rows) }
  refine ⟨s, ?_, hholds, rfl, ?_⟩
  · exact
      { data := h
        fingerprint_eq := rfl
        primal_eq := rfl
        settings_eq := rfl
        assembled := hassembled
        order_eq := by rw [horder, hperm]
        of := hof
        entries_eq := hof.storedCount_eq
        size_scratch := by simp [s, Vec.zeros, Nat.add_comm]
        usable_iff := fun husable => ⟨hholds, eq_ok_of_isOk husable⟩ }
  · rw [hrun]
    cases hverdict : verdict F A.cols with
    | error e => rfl
    | ok u => simp only [s, hverdict, Except.map, Except.isOk, Except.toBool]

end Data

/-- What an update does once it has recognized the data: the regularizer is written and the new
    matrix is factored. -/
def rewrite (s : DirectSystem α) (dual : Array α) :
    Checked (DirectSystem α × Except SystemError Unit) :=
  s.writeDual dual >>= fun
    | (t, .error e) => pure (t, .error e)
    | (t, .ok ()) => t.refactor

/-- The data is compared if the settings ask for it, and the update goes on if it is recognized. -/
theorem update_eq (s : DirectSystem α) (A P : Sparse α) (dual : Array α) :
    s.update A P dual =
      (if s.settings.checkInputs then s.dataMatches A P else pure true) >>= fun matching =>
        if matching then s.rewrite dual else pure (s, .error .matrixMismatch) := by
  unfold update
  cases s.settings.checkInputs with
  | true => rfl
  | false => rfl

namespace Invariant

variable {ordering : FillOrdering} {A P U : Sparse α} {primal : α} {settings : Settings α}
  {dual : Array α} {s : DirectSystem α}
  (h : Invariant ordering A P U primal settings dual s)

include h

theorem cols_eq : s.kkt.matrix.cols = A.rows + A.cols := h.assembled.layout.cols_eq

theorem triangle : s.kkt.matrix.Triangle := h.of.planOf.triangle

/-! ## 2. Solves -/

open Refinement in
/-- The refined solution keeps what every improvement keeps. -/
theorem exists_solveRefined {b : Array α} (hb : b.size = A.rows + A.cols) (inv : Array α → Prop)
    (hstart : ∀ x, s.factorization.solve b = .ok x → inv x)
    (himproves : Improves s.kkt.matrix s.factorization b inv) :
    ∃ r, s.solveRefined b = .ok r ∧ Ended s.kkt.matrix inv r := by
  have hb' := hb.trans h.cols_eq.symm
  have hscratch := h.size_scratch.trans h.cols_eq.symm
  obtain ⟨x, hx, hsize⟩ := h.of.exists_solve_size hb'
  unfold solveRefined
  rw [hx, Checked.ok_bind]
  by_cases hrefine : s.settings.refine = true
  · rw [if_pos hrefine]
    exact h.of.exists_refine hb' hscratch hsize himproves (hstart x hx) _
  · obtain ⟨e, he, hsizee, -⟩ := h.triangle.exists_symv hsize hb' (-1) 1
    rw [if_neg hrefine, residual_eq (hscratch.trans hb'.symm) he]
    exact ⟨_, rfl, hsize, hsizee, hstart x hx⟩

/-- A system remains in good form when counters and scratch space change. -/
theorem with_info {info : Diagnostics α} {scratch : Array α}
    (hentries : info.factorEntries = s.info.factorEntries)
    (hscratch : scratch.size = A.rows + A.cols) :
    Invariant ordering A P U primal settings dual { s with info := info, scratch := scratch } :=
  { h with
    entries_eq := hentries ▸ h.entries_eq
    size_scratch := hscratch }

omit h in
theorem solve_of_not_usable (husable : ¬ s.usable = true) (b : Array α) :
    s.solve b = .ok (s, b, .factorizationFailed) := by
  unfold solve
  rw [if_neg husable]
  rfl

/-- With usable factors a solve hands back the refined solution if that is finite. -/
theorem solve_of_usable (husable : s.usable = true) {b : Array α}
    (hb : b.size = A.rows + A.cols) {r : Refinement.State α} (hr : s.solveRefined b = .ok r) :
    s.solve b = .ok ({ s with info := s.info.recordSolve r.steps r.norm, scratch := r.residual },
      if Vec.isFinite r.x then (r.x, .success) else (b, .numericalError)) := by
  have hsize : b.size = s.fingerprint.size := by
    rw [h.fingerprint_eq]
    exact hb
  unfold solve
  rw [if_pos husable, Checked.require_of _ _ hsize, Checked.ok_bind, hr, Checked.ok_bind]
  by_cases hfinite : Vec.isFinite r.x = true
  · rw [if_pos hfinite, if_pos hfinite]
    rfl
  · rw [if_neg hfinite, if_neg hfinite]
    rfl

/-- **A solve answers and keeps the invariant.** -/
theorem exists_solve {b : Array α} (hb : b.size = A.rows + A.cols) :
    ∃ t answer, s.solve b = .ok (t, answer) ∧
      Invariant ordering A P U primal settings dual t ∧ t.usable = s.usable := by
  by_cases husable : s.usable = true
  · obtain ⟨r, hr, hended⟩ := h.exists_solveRefined hb (fun _ => True) (fun _ _ => trivial)
      fun _ _ _ _ _ _ _ _ => trivial
    rw [h.solve_of_usable husable hb hr]
    exact ⟨_, _, rfl, h.with_info rfl (hended.size_residual.trans h.cols_eq), rfl⟩
  · rw [solve_of_not_usable husable b]
    exact ⟨_, _, rfl, h, rfl⟩

/-! ## 3. Updates -/

omit [Scalar α] h in
theorem mapOver_eq_map {x v : Array α} (f : α → α) (hsize : x.size = v.size) :
    Vec.mapOver f x v = v.map f := by
  refine Array.ext (by simp [hsize]) fun i hi _ => ?_
  have hv : i < v.size := by simpa [hsize] using hi
  simp [Vec.mapOver, Vec.overlay, hv]

/-- Both copies of the matrix receive the negated regularizer. -/
theorem exists_writeDual {new : Array α} (hnew : new.size = A.rows) :
    ∃ t, s.writeDual new = .ok (t, .ok ()) ∧
      t.fingerprint = s.fingerprint ∧ t.primal = s.primal ∧ t.settings = s.settings ∧
      t.info = s.info ∧ t.scratch.size = s.scratch.size ∧
      t.factorization.factors = s.factorization.factors ∧
      Kkt.Assembled U A (fun v => v + primal) (fun i => (Vec.negate new).getD i 0) t.kkt ∧
      ordering.order? t.kkt.matrix.pattern settings.denseScale = some t.factorization.perm ∧
      Factorization.Of t.kkt.matrix (factorOptions A settings) t.factorization := by
  have hrows : s.fingerprint.rows = A.rows := by rw [h.fingerprint_eq]
  have hscratch := h.size_scratch
  have hvalues : Vec.mapOver (- ·) (s.scratch.extract 0 s.fingerprint.rows) new =
      Vec.negate new := mapOver_eq_map _ (by simp; omega)
  have hsize : (Vec.negate new).size = A.rows := by simp [Vec.negate, hnew]
  obtain ⟨F, hF, hperm, hfactors, hof⟩ := h.of.exists_updateValues
    (h.assembled.size_dual.trans hsize.symm) fun q hq => by
      obtain ⟨i, hi, rfl⟩ := Array.mem_iff_getElem.1 hq
      rw [← getD_of_lt _ _ 0 hi]
      exact (h.assembled.at_dual (hi.trans_eq h.assembled.size_dual)).1
  obtain ⟨hset, hassembled⟩ := Kkt.Assembled.setDual_eq h.data.blocks h.assembled hsize
  unfold writeDual
  dsimp only
  rw [hvalues, hF, Checked.ok_bind]
  dsimp only
  rw [hset, Checked.ok_bind]
  refine ⟨_, rfl, rfl, rfl, rfl, rfl, ?_, hfactors, hassembled, hperm ▸ h.order_eq, hof⟩
  simp [hsize]
  omega

/-- **Writing a regularizer and factoring again comes to the verdict on the new factorization and
    keeps the invariant**, whether or not that is favourable. -/
theorem exists_rewrite {new : Array α} (hnew : new.size = A.rows) :
    ∃ t, s.rewrite new = .ok (t, verdict t.factorization A.cols) ∧
      Invariant ordering A P U primal settings new t ∧ t.factorization.Holds ∧
      t.usable = (verdict t.factorization A.cols).isOk ∧
      t.info = { s.info with factorizations := s.info.factorizations + 1 } := by
  obtain ⟨t, hwrite, hfingerprint, hprimal', hsettings, hinfo, hscratch, hfactors, hassembled,
    horder, hof⟩ := h.exists_writeDual hnew
  obtain ⟨factors, hrefactor, hof', hholds⟩ := hof.exists_refactor
  let F : Factorization α := { t.factorization with factors }
  have hcols : t.fingerprint.cols = A.cols := by rw [hfingerprint, h.fingerprint_eq]
  have hentries : F.storedCount = .ok s.info.factorEntries := by
    have hold : t.factorization.storedCount = s.factorization.storedCount := by
      rw [Factorization.storedCount, Factorization.storedCount, hfactors]
    rw [hof'.storedCount_eq, ← h.entries_eq, ← hold, hof.storedCount_eq]
  rw [rewrite, hwrite, Checked.ok_bind]
  dsimp only
  rw [refactor, hrefactor, Checked.ok_bind]
  refine ⟨{ t with
    factorization := F
    usable := (verdict F A.cols).isOk
    info := { t.info with factorizations := t.info.factorizations + 1 } }, ?_, ?_, hholds, rfl, ?_⟩
  · unfold verdict
    rw [← hcols]
    rfl
  · exact
      { data := h.data
        fingerprint_eq := hfingerprint.trans h.fingerprint_eq
        primal_eq := hprimal'.trans h.primal_eq
        settings_eq := hsettings.trans h.settings_eq
        assembled := hassembled
        order_eq := horder
        of := hof'
        entries_eq := hinfo ▸ hentries
        size_scratch := hscratch.trans h.size_scratch
        usable_iff := fun husable => ⟨hholds, eq_ok_of_isOk husable⟩ }
  · rw [hinfo]

/-- An update with whatever matrices is refused, or it comes to the verdict on the new
    factorization and keeps the invariant. -/
theorem of_update {B Q : Sparse α} {new : Array α} (hnew : new.size = A.rows)
    {t : DirectSystem α} {result : Except SystemError Unit}
    (hupdate : s.update B Q new = .ok (t, result)) :
    (t = s ∧ result = .error .matrixMismatch) ∨
      Invariant ordering A P U primal settings new t ∧ t.usable = result.isOk ∧
        result = verdict t.factorization A.cols ∧ t.factorization.Holds := by
  rw [update_eq] at hupdate
  obtain ⟨matching, -, hupdate⟩ := Checked.bind_eq_ok.1 hupdate
  cases matching with
  | false =>
    cases hupdate
    exact .inl ⟨rfl, rfl⟩
  | true =>
    obtain ⟨u, hrewrite, hu, hholds, husable, -⟩ := h.exists_rewrite hnew
    cases hrewrite.symm.trans hupdate
    exact .inr ⟨hu, husable, rfl, hholds⟩

/-- The data the system was built from is recognized. -/
theorem update_of_data [ReflexiveScalar α] (hprimal : Scalar.isFinite primal = true)
    (new : Array α) : s.update A P new = s.rewrite new := by
  have hmatches : s.dataMatches A P = .ok true :=
    Data.dataMatches_eq h.data (h.primal_eq ▸ h.assembled) (h.primal_eq ▸ hprimal)
  rw [update_eq, hmatches, Checked.pure_eq_ok, ite_self, Checked.ok_bind, if_pos rfl]

/-- **An update comes to the verdict on the new factorization and keeps the invariant**, whether
    or not that is favourable. -/
theorem exists_update [ReflexiveScalar α] (hprimal : Scalar.isFinite primal = true)
    {new : Array α} (hnew : new.size = A.rows) :
    ∃ t, s.update A P new = .ok (t, verdict t.factorization A.cols) ∧
      Invariant ordering A P U primal settings new t ∧ t.factorization.Holds ∧
      t.usable = (verdict t.factorization A.cols).isOk ∧
      t.info = { s.info with factorizations := s.info.factorizations + 1 } := by
  rw [h.update_of_data hprimal]
  exact h.exists_rewrite hnew

/-! ## 5. What the invariant decides -/

variable {t : DirectSystem α} (ht : Invariant ordering A P U primal settings dual t)

include ht

theorem kkt_eq : s.kkt = t.kkt := h.assembled.unique ht.assembled

/-- Order, plan and places do not depend on the history. -/
theorem plan_eq : s.factorization.perm = t.factorization.perm ∧
    s.factorization.plan = t.factorization.plan ∧
    s.factorization.place = t.factorization.place := by
  have hperm : s.factorization.perm = t.factorization.perm := by
    have horder := h.order_eq
    rw [h.kkt_eq ht, ht.order_eq] at horder
    exact (Option.some.inj horder).symm
  have hplan := h.of.planOf
  rw [h.kkt_eq ht, hperm] at hplan
  exact ⟨hperm, hplan.unique ht.of.planOf⟩

theorem factorEntries_eq : s.info.factorEntries = t.info.factorEntries := by
  have hentries := h.entries_eq
  rw [h.of.storedCount_eq, (h.plan_eq ht).2.1, ← ht.of.storedCount_eq, ht.entries_eq] at hentries
  exact (Except.ok.inj hentries).symm

/-- **The data, the regularizers and the settings decide the factors**, if there are any. -/
theorem factorization_eq (hs' : s.factorization.Holds) (ht' : t.factorization.Holds)
    (hbad : s.factorization.plan.firstBad = none) : s.factorization = t.factorization := by
  obtain ⟨hperm, hplan, hplace⟩ := h.plan_eq ht
  have hfactors : s.factorization.factors = t.factorization.factors := by
    have hs := hs' hbad
    rw [hplan] at hs hbad
    exact hs.unique (ht' hbad)
  calc s.factorization = ⟨s.factorization.perm, s.factorization.plan, s.factorization.place,
        s.factorization.factors⟩ := rfl
    _ = t.factorization := by rw [hperm, hplan, hplace, hfactors]

/-- The data, the regularizers and the settings decide the verdict. -/
theorem verdict_eq (hs' : s.factorization.Holds) (ht' : t.factorization.Holds) :
    verdict s.factorization A.cols = verdict t.factorization A.cols := by
  cases hbad : s.factorization.plan.firstBad with
  | none => rw [h.factorization_eq ht hs' ht' hbad]
  | some column =>
    have hbad' := hbad
    rw [(h.plan_eq ht).2.1] at hbad'
    simp only [verdict, Factorization.outcome, hbad, hbad']
    rfl

end Invariant

end DirectSystem

end Quasidefinite

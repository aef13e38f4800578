import Quasidefinite.Ordering.MinimumDegree
import Quasidefinite.Proofs.Workspace.Construction

/-!
# Calls and sessions

A workspace is used by calls of `Workspace.solve` and `Workspace.update`, in any order and with any
arguments. A `Session` is a workspace together with the dual regularizer that it accepted last, and
`Session.run` carries it through a list of calls; a call that is refused, or that fails, is a call
like any other. What every call keeps, a whole run keeps (`Session.exists_run`). The calls that
lead to a reachable session (`Session.Reachable`) may even differ in their matrices.

A call that answers has refused its arguments and left the workspace as it was, or it is one of the
method, for arguments that passed the validation (`Workspace.cases_solve`,
`Workspace.cases_update`).

The sessions of the direct method (`Session.OfDirect`) keep the invariant of their system; while
its factors are usable, the dual regularizer written last is the one accepted last.
-/

namespace Quasidefinite

/-! ## 1. Runs -/

/-- A call of a workspace. -/
inductive Call (α : Type)
  /-- See `Workspace.solve`. -/
  | solve (b : Array α) (warm : Option (Array α)) (tol : α)
  /-- See `Workspace.update`. -/
  | update (dual : Array α)

/-- A workspace in use. -/
structure Session (α : Type) where
  /-- The workspace. -/
  workspace : Workspace α
  /-- The dual regularizer of the last update that succeeded, or else that of construction. -/
  dual : Array α

/-- Holds unless the factors of a direct system are unusable. -/
def Workspace.usable {α : Type} : Workspace α → Bool
  | .direct s => s.usable
  | .indirect _ => true

namespace Session

variable {α : Type} [Scalar α] {A P : Sparse α}

/-- Makes a call with the given matrices. -/
def call (A P : Sparse α) (s : Session α) : Call α → Checked (Session α)
  | .solve b warm tol => do
    let (w, _, _) ← s.workspace.solve A P b warm tol
    pure { s with workspace := w }
  | .update dual => do
    let (w, result) ← s.workspace.update A P dual
    pure { workspace := w, dual := if result.isOk then dual else s.dual }

/-- Makes the calls of a list one after the other. -/
def run (A P : Sparse α) (s : Session α) (calls : List (Call α)) : Checked (Session α) :=
  calls.foldlM (call A P) s

/-- Builds a workspace and makes the calls of a list. -/
def start (ordering : FillOrdering) (A P : Sparse α) (reg : Regularization α)
    (settings : Settings α) (calls : List (Call α)) : Attempt SystemError (Session α) := do
  let w ← Workspace.new ordering A P reg settings
  run A P ⟨w, reg.dual⟩ calls

/-- **The sessions that construction and some calls lead to**, each call with matrices of its
    own. -/
inductive Reachable (ordering : FillOrdering) (A P : Sparse α) (reg : Regularization α)
    (settings : Settings α) : Session α → Prop
  | new (w : Workspace α) (h : (Workspace.new ordering A P reg settings).run = .ok (.ok w)) :
      Reachable ordering A P reg settings ⟨w, reg.dual⟩
  | call (B Q : Sparse α) (c : Call α) (s t : Session α)
      (hs : Reachable ordering A P reg settings s) (h : s.call B Q c = .ok t) :
      Reachable ordering A P reg settings t

theorem Reachable.run {ordering : FillOrdering} {reg : Regularization α} {settings : Settings α}
    {s t : Session α} (hs : Reachable ordering A P reg settings s) {B Q : Sparse α}
    {calls : List (Call α)} (h : s.run B Q calls = .ok t) :
    Reachable ordering A P reg settings t :=
  Checked.foldlM_keeps (Reachable ordering A P reg settings) h hs fun s c t hs h =>
    .call B Q c s t hs h

/-- The data and the settings of a session have passed the checks. -/
theorem Reachable.admissible {ordering : FillOrdering} {reg : Regularization α}
    {settings : Settings α} {s : Session α} (hs : Reachable ordering A P reg settings s) :
    Workspace.Admissible A P settings := by
  induction hs with
  | new w hnew => exact (Workspace.admissible_of_new hnew).1
  | call B Q c s t _ hcall ih => exact ih

theorem call_solve {s : Session α} {b x : Array α} {warm : Option (Array α)} {tol : α}
    {w : Workspace α} {status : Status}
    (h : s.workspace.solve A P b warm tol = .ok (w, x, status)) :
    s.call A P (.solve b warm tol) = .ok { s with workspace := w } := by
  rw [call, h, Checked.ok_bind]
  rfl

theorem call_update {s : Session α} {dual : Array α} {w : Workspace α}
    {result : Except SystemError Unit} (h : s.workspace.update A P dual = .ok (w, result)) :
    s.call A P (.update dual) =
      .ok { workspace := w, dual := if result.isOk then dual else s.dual } := by
  rw [call, h, Checked.ok_bind]
  rfl

/-- **What every call keeps, every run keeps**, and no run faults. -/
theorem exists_run (inv : Session α → Prop)
    (hcall : ∀ s c, inv s → ∃ t, s.call A P c = .ok t ∧ inv t) (calls : List (Call α))
    {s : Session α} (h : inv s) : ∃ t, s.run A P calls = .ok t ∧ inv t := by
  induction calls generalizing s with
  | nil => exact ⟨s, rfl, h⟩
  | cons c calls ih =>
    obtain ⟨t, ht, hinv⟩ := hcall s c h
    obtain ⟨u, hu, hend⟩ := ih hinv
    refine ⟨u, ?_, hend⟩
    rw [run, List.foldlM_cons, ht]
    exact hu

end Session

/-! ## 2. Valid arguments -/

theorem Regularization.checkDual_eq_ok {α : Type} [Scalar α] {dual : Array α} :
    checkDual dual = .ok () ↔ dual.all Scalar.isPositiveFinite = true := by
  unfold checkDual
  cases hbad : firstBad? dual with
  | none => exact iff_of_true rfl (all_of_firstBad?_eq_none hbad)
  | some index =>
    refine iff_of_false (by rintro ⟨⟩) fun hall => ?_
    have hnone : firstBad? dual = none := by
      rw [Array.all_eq_true_iff_forall_mem] at hall
      simpa [firstBad?] using hall
    rw [hnone] at hbad
    cases hbad

namespace Workspace

variable {α : Type} [Scalar α] {w : Workspace α}

theorem validSolve_iff {b : Array α} {warm : Option (Array α)} {tol : α} :
    w.validSolve b warm tol = true ↔ b.size = w.fingerprint.size ∧
      (∀ x ∈ warm, x.size = w.fingerprint.size) ∧ Scalar.isPositiveFinite tol = true := by
  unfold validSolve
  cases warm <;> simp [and_assoc]

theorem checkUpdate_eq_ok {dual : Array α} : w.checkUpdate dual = .ok () ↔
    dual.size = w.fingerprint.rows ∧ dual.all Scalar.isPositiveFinite = true := by
  unfold checkUpdate
  rw [← Regularization.checkDual_eq_ok, eq_comm (a := dual.size)]
  by_cases hsize : w.fingerprint.rows = dual.size
  · rw [checkDimension_eq_ok.2 hsize]
    exact (and_iff_right hsize).symm
  · unfold checkDimension
    rw [if_neg hsize]
    exact iff_of_false (by rintro ⟨⟩) fun h => hsize h.1

end Workspace

/-! ## 3. Calls that answer -/

/-- The error comes from the factorization and not from the validation of arguments. -/
def SystemError.isNumeric : SystemError → Bool
  | .factorization _ => true
  | .inertia _ _ => true
  | _ => false

/-- An update with this result has passed its validation. -/
def passed : Except SystemError Unit → Bool
  | .ok _ => true
  | .error e => e.isNumeric

theorem isOk_of_not_passed {result : Except SystemError Unit} (h : passed result = false) :
    result.isOk = false := by
  cases result with
  | ok u => cases h
  | error e => rfl

namespace Workspace

variable {α : Type} [Scalar α] {A P : Sparse α} {w t : Workspace α}

/-- Once its matrices have been compared, a solve is one of the method or it is refused. -/
theorem solve_of_admits {admitted : Bool} (h : w.fingerprint.admits A P = .ok admitted)
    (b : Array α) (warm : Option (Array α)) (tol : α) :
    w.solve A P b warm tol =
      if admitted && w.validSolve b warm tol then w.solveChecked A P b warm tol
      else .ok (w, b, .invalidInput) := by
  unfold solve
  rw [h]
  rfl

/-- A checked solve of a direct workspace is one of its system. -/
theorem solveChecked_direct_eq_ok {s : DirectSystem α} {b z : Array α} {warm : Option (Array α)}
    {tol : α} {status : Status} :
    (direct s).solveChecked A P b warm tol = .ok (t, z, status) ↔
      ∃ u, s.solve b = .ok (u, z, status) ∧ t = .direct u :=
  Checked.bind_pair_eq_ok

/-- A checked solve of an indirect workspace is one of its system. -/
theorem solveChecked_indirect_eq_ok {s : IndirectSystem α} {b z : Array α}
    {warm : Option (Array α)} {tol : α} {status : Status} :
    (indirect s).solveChecked A P b warm tol = .ok (t, z, status) ↔
      ∃ u, s.solve A P b warm tol = .ok (u, z, status) ∧ t = .indirect u :=
  Checked.bind_pair_eq_ok

/-- A checked update of a direct workspace is one of its system. -/
theorem updateChecked_direct_eq_ok {s : DirectSystem α} {dual : Array α}
    {result : Except SystemError Unit} :
    (direct s).updateChecked A P dual = .ok (t, result) ↔
      ∃ u, s.update A P dual = .ok (u, result) ∧ t = .direct u :=
  Checked.bind_pair_eq_ok

/-- A checked update of an indirect workspace is one of its system. -/
theorem updateChecked_indirect_eq_ok {s : IndirectSystem α} {dual : Array α}
    {result : Except SystemError Unit} :
    (indirect s).updateChecked A P dual = .ok (t, result) ↔
      ∃ u, s.update A P dual = .ok (u, result) ∧ t = .indirect u :=
  Checked.bind_pair_eq_ok

/-- A solve that answers has refused its arguments, or it is one of the method. -/
theorem cases_solve {b z : Array α} {warm : Option (Array α)} {tol : α} {status : Status}
    (h : w.solve A P b warm tol = .ok (t, z, status)) :
    (t = w ∧ z = b ∧ status = .invalidInput) ∨
      w.fingerprint.admits A P = .ok true ∧ w.validSolve b warm tol = true ∧
        w.solveChecked A P b warm tol = .ok (t, z, status) := by
  obtain ⟨admitted, hadmits, h⟩ := Checked.bind_eq_ok.1 h
  split at h
  case isTrue hvalid =>
    rw [Bool.and_eq_true] at hvalid
    exact .inr ⟨hvalid.1 ▸ hadmits, hvalid.2, h⟩
  case isFalse =>
    cases h
    exact .inl ⟨rfl, rfl, rfl⟩

theorem not_numeric_of_checkDual {dual : Array α} {e : SystemError}
    (h : Regularization.checkDual dual = .error e) : e.isNumeric = false := by
  unfold Regularization.checkDual at h
  split at h
  · cases h
    rfl
  · cases h

/-- Validation of the arguments never blames the factorization. -/
theorem not_passed_of_checkUpdate {dual : Array α} {e : SystemError}
    (h : w.checkUpdate dual = .error e) : e.isNumeric = false := by
  unfold checkUpdate checkDimension at h
  split at h
  · exact not_numeric_of_checkDual h
  · cases h
    rfl

/-- An update that answers has refused its arguments, or it is one of the method. -/
theorem cases_update {dual : Array α} {result : Except SystemError Unit}
    (h : w.update A P dual = .ok (t, result)) :
    (t = w ∧ passed result = false) ∨
      w.checkUpdate dual = .ok () ∧ w.updateChecked A P dual = .ok (t, result) := by
  obtain ⟨admitted, -, h⟩ := Checked.bind_eq_ok.1 h
  split at h
  case isTrue =>
    split at h
    case h_1 e hcheck =>
      cases h
      exact .inl ⟨rfl, not_passed_of_checkUpdate hcheck⟩
    case h_2 hcheck => exact .inr ⟨hcheck, h⟩
  case isFalse =>
    cases h
    exact .inl ⟨rfl, rfl⟩

end Workspace

theorem Regularization.isFinite_primal {α : Type} [Scalar α] (reg : Regularization α) :
    Scalar.isFinite reg.primal = true := by
  have hprimal := reg.primal_ok
  unfold Scalar.isPositiveFinite at hprimal
  rw [Bool.and_eq_true] at hprimal
  exact hprimal.2

/-! ## 4. Calls of the direct method -/

namespace DirectSystem.Invariant

variable {α : Type} [Scalar α] {ordering : FillOrdering} {A P U : Sparse α} {primal : α}
  {settings : Settings α} {dual : Array α} {s : DirectSystem α}
  (h : Invariant ordering A P U primal settings dual s)

include h

theorem size_fingerprint : s.fingerprint.size = A.rows + A.cols := by
  rw [h.fingerprint_eq]
  rfl

/-- The matrices the system was built from are admitted. -/
theorem admits_eq : s.fingerprint.admits A P = .ok true := by
  rw [Fingerprint.admits_of_shaped _ h.data.constraint.toShaped h.data.quadratic.toShaped,
    h.fingerprint_eq, decide_eq_true ⟨rfl, h.data.rows_eq, h.data.cols_eq⟩]

theorem validSolve_iff {b : Array α} {warm : Option (Array α)} {tol : α} :
    (Workspace.direct s).validSolve b warm tol = true ↔ b.size = A.rows + A.cols ∧
      (∀ x ∈ warm, x.size = A.rows + A.cols) ∧ Scalar.isPositiveFinite tol = true := by
  rw [Workspace.validSolve_iff, Workspace.fingerprint, h.size_fingerprint]

/-- A solve with valid arguments is one of the system. -/
theorem workspace_solve_of_valid {b : Array α} {warm : Option (Array α)} {tol : α}
    (hvalid : (Workspace.direct s).validSolve b warm tol = true) {t : DirectSystem α}
    {x : Array α} {status : Status} (hsolve : s.solve b = .ok (t, x, status)) :
    (Workspace.direct s).solve A P b warm tol = .ok (.direct t, x, status) := by
  rw [Workspace.solve_of_admits (w := .direct s) h.admits_eq, hvalid, Bool.and_self, if_pos rfl]
  exact Workspace.solveChecked_direct_eq_ok.2 ⟨t, hsolve, rfl⟩

theorem workspace_solve_of_not_valid {b : Array α} {warm : Option (Array α)} {tol : α}
    (hvalid : ¬ (Workspace.direct s).validSolve b warm tol = true) :
    (Workspace.direct s).solve A P b warm tol = .ok (.direct s, b, .invalidInput) := by
  rw [Workspace.solve_of_admits (w := .direct s) h.admits_eq, Bool.true_and, if_neg hvalid]

/-- A solve answers and keeps the invariant. -/
theorem exists_workspace_solve (b : Array α) (warm : Option (Array α)) (tol : α) :
    ∃ t x status, (Workspace.direct s).solve A P b warm tol = .ok (.direct t, x, status) ∧
      Invariant ordering A P U primal settings dual t ∧ t.usable = s.usable := by
  by_cases hvalid : (Workspace.direct s).validSolve b warm tol = true
  · obtain ⟨t, ⟨x, status⟩, hsolve, ht, husable⟩ := h.exists_solve (h.validSolve_iff.1 hvalid).1
    exact ⟨t, x, status, h.workspace_solve_of_valid hvalid hsolve, ht, husable⟩
  · exact ⟨s, b, _, h.workspace_solve_of_not_valid hvalid, h, rfl⟩

theorem checkUpdate_eq_ok {new : Array α} : (Workspace.direct s).checkUpdate new = .ok () ↔
    new.size = A.rows ∧ new.all Scalar.isPositiveFinite = true := by
  rw [Workspace.checkUpdate_eq_ok, Workspace.fingerprint, h.fingerprint_eq]

/-- An update that is refused leaves the system as it is. -/
theorem workspace_update_of_error {new : Array α} {e : SystemError}
    (hcheck : (Workspace.direct s).checkUpdate new = .error e) :
    (Workspace.direct s).update A P new = .ok (.direct s, .error e) := by
  unfold Workspace.update Workspace.fingerprint
  rw [h.admits_eq, Checked.ok_bind, if_pos rfl, hcheck]
  rfl

/-- **An update with a valid regularizer comes to the verdict on the new factorization.** -/
theorem exists_workspace_update [ReflexiveScalar α] (hprimal : Scalar.isFinite primal = true)
    {new : Array α} (hsize : new.size = A.rows)
    (hpositive : new.all Scalar.isPositiveFinite = true) :
    ∃ t, (Workspace.direct s).update A P new =
        .ok (.direct t, verdict t.factorization A.cols) ∧
      Invariant ordering A P U primal settings new t ∧ t.factorization.Holds ∧
      t.usable = (verdict t.factorization A.cols).isOk := by
  obtain ⟨t, hupdate, ht, hholds, husable, -⟩ := h.exists_update hprimal hsize
  refine ⟨t, ?_, ht, hholds, husable⟩
  unfold Workspace.update Workspace.fingerprint
  rw [h.admits_eq, Checked.ok_bind, if_pos rfl, h.checkUpdate_eq_ok.2 ⟨hsize, hpositive⟩]
  exact Workspace.updateChecked_direct_eq_ok.2 ⟨t, hupdate, rfl⟩

end DirectSystem.Invariant

/-! ## 5. Sessions of the direct method -/

namespace Session

open DirectSystem

variable {α : Type} [Scalar α]

/-- **The sessions of the direct method**: the system keeps its invariant, and while its factors
    are usable the dual regularizer written last is the one accepted last. -/
inductive OfDirect (ordering : FillOrdering) (A P U : Sparse α) (primal : α)
    (settings : Settings α) : Session α → Prop
  | intro {s : DirectSystem α} {written dual : Array α}
      (h : Invariant ordering A P U primal settings written s)
      (hwritten : s.usable = true → written = dual) :
      OfDirect ordering A P U primal settings ⟨.direct s, dual⟩

variable {ordering : FillOrdering} {A P U : Sparse α} {primal : α} {settings : Settings α}

open Workspace in
/-- **Construction for the direct method comes to the verdict on the factorization**, and a
    session begins if that is favourable. -/
theorem exists_new_direct {reg : Regularization α} (hdata : Data A P U)
    (hadmissible : Admissible A P settings) (hdual : reg.dual.size = A.rows)
    (hmethod : settings.method = .direct) (ordering : FillOrdering) :
    ∃ s, Invariant ordering A P U reg.primal settings reg.dual s ∧ s.factorization.Holds ∧
      s.usable = (verdict s.factorization A.cols).isOk ∧
      (Workspace.new ordering A P reg settings).run =
        .ok ((verdict s.factorization A.cols).map fun _ => .direct s) := by
  obtain ⟨s, hs, hholds, husable, hnew⟩ :=
    hdata.exists_new ordering reg (Settings.isSome_engine hadmissible.settings_ok) hdual
  refine ⟨s, hs, hholds, husable, ?_⟩
  rw [run_new_of_admissible hadmissible hdual, run_buildChecked_direct hmethod hnew]
  cases verdict s.factorization A.cols <;> rfl

/-- A workspace that was built begins a session of the direct method. -/
theorem OfDirect.exists_of_new {reg : Regularization α} {w : Workspace α} (hA : A.WellFormed)
    (hP : P.WellFormed) (hmethod : settings.method = .direct)
    (hnew : (Workspace.new ordering A P reg settings).run = .ok (.ok w)) :
    ∃ U, Data A P U ∧ OfDirect ordering A P U reg.primal settings ⟨w, reg.dual⟩ := by
  obtain ⟨hadmissible, hdual⟩ := Workspace.admissible_of_new hnew
  obtain ⟨U, hdata⟩ := exists_data hA hP hadmissible.rows_eq hadmissible.cols_eq
  obtain ⟨s, hs, -, -, hrun⟩ := exists_new_direct hdata hadmissible hdual hmethod ordering
  refine ⟨U, hdata, ?_⟩
  rw [hrun] at hnew
  cases hverdict : verdict s.factorization A.cols with
  | ok u =>
    rw [hverdict] at hnew
    obtain rfl : Workspace.direct s = w := Except.ok.inj (Except.ok.inj hnew)
    exact ⟨hs, fun _ => rfl⟩
  | error e =>
    rw [hverdict] at hnew
    cases Except.ok.inj hnew

/-- A call that answers keeps the session one of the direct method, with whatever matrices. -/
theorem OfDirect.of_call {s t : Session α} (hs : OfDirect ordering A P U primal settings s)
    {B Q : Sparse α} {c : Call α} (hcall : s.call B Q c = .ok t) :
    OfDirect ordering A P U primal settings t := by
  obtain ⟨h, hwritten⟩ := id hs
  cases c with
  | solve b warm tol =>
    obtain ⟨⟨w, z, status⟩, hsolve, hcall⟩ := Checked.bind_eq_ok.1 hcall
    cases hcall
    rcases Workspace.cases_solve hsolve with ⟨rfl, -⟩ | ⟨-, hvalid, hsolve⟩
    · exact hs
    · obtain ⟨u, hsystem, rfl⟩ := Workspace.solveChecked_direct_eq_ok.1 hsolve
      obtain ⟨t, answer, hanswer, ht, husable⟩ := h.exists_solve (h.validSolve_iff.1 hvalid).1
      cases hsystem.symm.trans hanswer
      exact ⟨ht, fun hu => hwritten (husable ▸ hu)⟩
  | update new =>
    obtain ⟨⟨w, result⟩, hupdate, hcall⟩ := Checked.bind_eq_ok.1 hcall
    cases hcall
    rcases Workspace.cases_update hupdate with ⟨rfl, hpassed⟩ | ⟨hcheck, hupdate⟩
    · dsimp only
      rw [isOk_of_not_passed hpassed]
      exact hs
    · obtain ⟨t, hsystem, rfl⟩ := Workspace.updateChecked_direct_eq_ok.1 hupdate
      rcases h.of_update (h.checkUpdate_eq_ok.1 hcheck).1 hsystem with
        ⟨ht, hrefused⟩ | ⟨ht, husable, -⟩
      · dsimp only
        rw [ht, hrefused]
        exact hs
      · exact ⟨ht, fun hu => by rw [if_pos (husable ▸ hu)]⟩

/-- Every call with the matrices of the session answers, and keeps it one of the direct method. -/
theorem OfDirect.exists_call [ReflexiveScalar α] (hprimal : Scalar.isFinite primal = true)
    {s : Session α} (hs : OfDirect ordering A P U primal settings s) (c : Call α) :
    ∃ t, s.call A P c = .ok t ∧ OfDirect ordering A P U primal settings t := by
  have hanswers : ∃ t, s.call A P c = .ok t := by
    obtain ⟨h, -⟩ := hs
    cases c with
    | solve b warm tol =>
      obtain ⟨t, x, status, hsolve, -⟩ := h.exists_workspace_solve b warm tol
      exact ⟨_, call_solve hsolve⟩
    | update new =>
      cases hcheck : (Workspace.direct _).checkUpdate new with
      | error e => exact ⟨_, call_update (h.workspace_update_of_error hcheck)⟩
      | ok u =>
        obtain ⟨hsize, hpositive⟩ := h.checkUpdate_eq_ok.1 hcheck
        obtain ⟨t, hupdate, -⟩ := h.exists_workspace_update hprimal hsize hpositive
        exact ⟨_, call_update hupdate⟩
  obtain ⟨t, hcall⟩ := hanswers
  exact ⟨t, hcall, hs.of_call hcall⟩

/-- **Every reachable session is one of the direct method.** -/
theorem Reachable.exists_ofDirect {reg : Regularization α}
    (hA : A.WellFormed) (hP : P.WellFormed) (hmethod : settings.method = .direct) {s : Session α}
    (hs : Reachable ordering A P reg settings s) :
    ∃ U, OfDirect ordering A P U reg.primal settings s := by
  induction hs with
  | new w hnew =>
    obtain ⟨U, -, h⟩ := OfDirect.exists_of_new hA hP hmethod hnew
    exact ⟨U, h⟩
  | call B Q c s t _ hcall ih =>
    obtain ⟨U, h⟩ := ih
    exact ⟨U, h.of_call hcall⟩

/-- **Every run of the direct method answers** and keeps the session one of that method. -/
theorem OfDirect.exists_run [ReflexiveScalar α] (hprimal : Scalar.isFinite primal = true)
    {s : Session α} (hs : OfDirect ordering A P U primal settings s) (calls : List (Call α)) :
    ∃ t, s.run A P calls = .ok t ∧ OfDirect ordering A P U primal settings t :=
  Session.exists_run _ (fun _ c h => h.exists_call hprimal c) calls hs

end Session

/-! ## 6. Small problems -/

namespace Sample

open scoped Scalar

/-- One constraint on two variables. -/
def constraint : Sparse ℚ where
  rows := 1
  cols := 2
  colStart := #[0, 1, 2]
  rowIndex := #[0, 0]
  value := #[1, -1]

/-- A quadratic term, stored in full. -/
def quadratic : Sparse ℚ where
  rows := 2
  cols := 2
  colStart := #[0, 2, 4]
  rowIndex := #[0, 1, 0, 1]
  value := #[2, 1, 1, 3]

/-- Regularizers with the given dual entry. -/
def regularization (dual : ℚ) (h : 0 < dual) : Regularization ℚ where
  primal := 1 / 2
  dual := #[dual]
  primal_ok := by decide +kernel
  dual_ok := by simp [h]

theorem constraint_ok : constraint.checkFormat.run = .ok (.ok ()) := by decide +kernel

theorem quadratic_ok : quadratic.checkFormat.run = .ok (.ok ()) := by decide +kernel

/-- The workspace for the small problem. -/
def workspace : Workspace ℚ :=
  (Workspace.new .minimumDegree constraint quadratic (regularization 3 (by decide +kernel))
    .standard).answer?.get (by decide +kernel)

theorem new_eq : (Workspace.new .minimumDegree constraint quadratic
    (regularization 3 (by decide +kernel)) .standard).run = .ok (.ok workspace) :=
  Attempt.run_of_answer? (Option.some_get _).symm

/-- One constraint on one variable. -/
def unitConstraint : Sparse ℚ where
  rows := 1
  cols := 1
  colStart := #[0, 1]
  rowIndex := #[0]
  value := #[1]

/-- A concave quadratic term. -/
def concave : Sparse ℚ where
  rows := 1
  cols := 1
  colStart := #[0, 1]
  rowIndex := #[0]
  value := #[-1]

/-- The workspace for the concave problem. The larger the dual regularizer, the weaker the hold
    that the constraint has on the variable. -/
def concaveWorkspace : Workspace ℚ :=
  (Workspace.new .minimumDegree unitConstraint concave (regularization 1 (by decide +kernel))
    .standard).answer?.get (by decide +kernel)

theorem concave_new_eq : (Workspace.new .minimumDegree unitConstraint concave
    (regularization 1 (by decide +kernel)) .standard).run = .ok (.ok concaveWorkspace) :=
  Attempt.run_of_answer? (Option.some_get _).symm

end Sample

end Quasidefinite

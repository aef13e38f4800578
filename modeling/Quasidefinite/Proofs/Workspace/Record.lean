import Quasidefinite.Proofs.Indirect.System
import Quasidefinite.Proofs.Workspace.Session

/-!
# What calls come to

The inversion lemmas of this module list all that a solve and an update by the direct method can
come to, with whatever matrices, in whatever state and in every arithmetic
(`DirectSystem.cases_solve`, `DirectSystem.cases_update`). Those of the indirect method stand beside
the parts of its solve, and those that tell refused calls from the others beside the sessions.

`Workspace.Past` relates a workspace to the one that was built and to a record of what every call
since then came to, the last one first. What a workspace carries of its past is stated in terms of
that record: the last update that passed its validation (`lastPassed?`), and the last solve that
was not refused (`lastSolve?`).
-/

namespace Quasidefinite

/-! ## 1. Records -/

/-- What a call came to. -/
inductive Event (α : Type)
  /-- A solve handed back the vector `z` with a status. -/
  | solve (z : Array α) (status : Status)
  /-- An update of the dual regularizer to `dual` came to a result. -/
  | update (dual : Array α) (result : Except SystemError Unit)

section Record

variable {α : Type}

/-- The last update in a record that passed its validation, with its result. -/
def lastPassed? : List (Event α) → Option (Array α × Except SystemError Unit)
  | [] => none
  | .solve _ _ :: events => lastPassed? events
  | .update dual result :: events =>
    if passed result then some (dual, result) else lastPassed? events

/-- The dual regularizer after the calls of a record, if there was `initial` before. -/
def writtenDual (initial : Array α) (events : List (Event α)) : Array α :=
  ((lastPassed? events).map Prod.fst).getD initial

/-- The last solve in a record that was not refused: the vector it handed back, and its status. -/
def lastSolve? : List (Event α) → Option (Array α × Status)
  | [] => none
  | .solve z status :: events =>
    if status = .invalidInput then lastSolve? events else some (z, status)
  | .update _ _ :: events => lastSolve? events

@[simp] theorem writtenDual_nil (initial : Array α) : writtenDual initial [] = initial := rfl

@[simp] theorem writtenDual_solve (initial z : Array α) (status : Status)
    (events : List (Event α)) :
    writtenDual initial (.solve z status :: events) = writtenDual initial events := rfl

theorem writtenDual_update (initial dual : Array α) (result : Except SystemError Unit)
    (events : List (Event α)) : writtenDual initial (.update dual result :: events) =
      if passed result then dual else writtenDual initial events := by
  unfold writtenDual
  rw [lastPassed?]
  split <;> rfl

end Record

/-! ## 2. The direct method -/

namespace DirectSystem

variable {α : Type} [Scalar α] {s t : DirectSystem α} {A P : Sparse α} {b z dual : Array α}

/-- **What a direct solve can come to**: without usable factors nothing; else the refined solution
    is found, and handed back if it is finite. -/
theorem cases_solve {status : Status} (h : s.solve b = .ok (t, z, status)) :
    (s.usable = false ∧ t = s ∧ z = b ∧ status = .factorizationFailed) ∨
      ∃ r, s.usable = true ∧ b.size = s.fingerprint.size ∧ s.solveRefined b = .ok r ∧
        t = { s with info := s.info.recordSolve r.steps r.norm, scratch := r.residual } ∧
        (Vec.isFinite r.x = true ∧ z = r.x ∧ status = .success ∨
          Vec.isFinite r.x = false ∧ z = b ∧ status = .numericalError) := by
  unfold solve at h
  split at h
  case isFalse husable =>
    cases h
    exact .inl ⟨Bool.not_eq_true _ ▸ husable, rfl, rfl, rfl⟩
  case isTrue husable =>
    obtain ⟨⟨⟩, hsize, h⟩ := Checked.bind_eq_ok.1 h
    obtain ⟨r, hr, h⟩ := Checked.bind_eq_ok.1 h
    refine .inr ⟨r, husable, Checked.require_eq_ok.1 hsize, hr, ?_⟩
    dsimp only at h
    split at h
    case isTrue hfinite =>
      cases h
      exact ⟨rfl, .inl ⟨hfinite, rfl, rfl⟩⟩
    case isFalse hfinite =>
      cases h
      exact ⟨rfl, .inr ⟨Bool.not_eq_true _ ▸ hfinite, rfl, rfl⟩⟩

/-- **What a direct update can come to**: it is refused for its matrices; or its regularizer cannot
    be written; or it is written and the matrix is factored again. -/
theorem cases_update {result : Except SystemError Unit}
    (h : s.update A P dual = .ok (t, result)) :
    (t = s ∧ result = .error .matrixMismatch) ∨
      (∃ e, s.writeDual dual = .ok (t, .error e) ∧ result = .error e) ∨
      ∃ v, s.writeDual dual = .ok (v, .ok ()) ∧ v.refactor = .ok (t, result) := by
  rw [update_eq] at h
  obtain ⟨matching, -, h⟩ := Checked.bind_eq_ok.1 h
  cases matching with
  | false =>
    cases h
    exact .inl ⟨rfl, rfl⟩
  | true =>
    obtain ⟨⟨v, written⟩, hwrite, h⟩ := Checked.bind_eq_ok.1 h
    cases written with
    | error e =>
      cases h
      exact .inr (.inl ⟨e, hwrite, rfl⟩)
    | ok u => exact .inr (.inr ⟨v, hwrite, h⟩)

/-- Factoring again tells by the mark whether it succeeded, and fails for no other reason than the
    factorization. -/
theorem usable_of_refactor {result : Except SystemError Unit}
    (h : s.refactor = .ok (t, result)) : t.usable = result.isOk ∧ passed result = true := by
  obtain ⟨⟨F, swept⟩, -, h⟩ := Checked.bind_eq_ok.1 h
  cases h
  refine ⟨rfl, ?_⟩
  cases swept with
  | error e => rfl
  | ok u =>
    show passed (checkInertia F s.fingerprint.cols) = true
    unfold checkInertia
    split <;> rfl

end DirectSystem

/-! ## 3. Workspaces -/

namespace Workspace

variable {α : Type} [Scalar α] {w t : Workspace α} {A P : Sparse α}

/-- **The workspaces that some calls lead to**, with a record of what the calls came to, the last
    one first. Every call has matrices of its own, of which `allowed` holds. -/
inductive Past (allowed : Sparse α → Sparse α → Prop) (start : Workspace α) :
    List (Event α) → Workspace α → Prop
  | none : Past allowed start [] start
  | solve {events : List (Event α)} {w t : Workspace α} (hw : Past allowed start events w)
      {A P : Sparse α} {b z : Array α} {warm : Option (Array α)} {tol : α} {status : Status}
      (hallowed : allowed A P) (h : w.solve A P b warm tol = .ok (t, z, status)) :
      Past allowed start (.solve z status :: events) t
  | update {events : List (Event α)} {w t : Workspace α} (hw : Past allowed start events w)
      {A P : Sparse α} {dual : Array α} {result : Except SystemError Unit}
      (hallowed : allowed A P) (h : w.update A P dual = .ok (t, result)) :
      Past allowed start (.update dual result :: events) t

/-- Any matrices at all. -/
def anyMatrices (_ _ : Sparse α) : Prop := True

end Workspace

end Quasidefinite

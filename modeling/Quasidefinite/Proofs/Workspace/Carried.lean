import Quasidefinite.Proofs.Indirect.Built
import Quasidefinite.Proofs.Workspace.Failure
import Quasidefinite.Proofs.Workspace.Indirect

/-!
# What the indirect method carries from call to call

A workspace for the indirect method that has gone through any calls with the matrices it was built
from, failures included, holds nothing of its past besides the dual regularizer written last and the
iterate of the last solve that was carried out (`Workspace.Carries`). Every solve therefore has the
outcome that it has in a workspace built for the current dual regularizer, started from that iterate
where the settings ask for it (`Workspace.indirect_forgets`). This holds in every arithmetic: where
vectors of an earlier call hold values that are not numbers, they are overwritten before they are
read.
-/

namespace Quasidefinite

variable {α : Type} [Scalar α]

/-- The iterate that the calls of a record leave behind, with `n` variables: the first block of what
    the last solve that was not refused handed back, or zero if there was no such solve or it found
    no finite solution. -/
def carried (n : Nat) (events : List (Event α)) : Array α :=
  match lastSolve? events with
  | some (z, .success) => z.extract 0 n
  | some (z, .notConverged) => z.extract 0 n
  | _ => Vec.zeros n

theorem carried_solve (n : Nat) (events : List (Event α)) {z : Array α} {status : Status}
    (h : status ≠ .invalidInput) : carried n (.solve z status :: events) =
      if status = .success ∨ status = .notConverged then z.extract 0 n else Vec.zeros n := by
  unfold carried
  rw [lastSolve?, if_neg h]
  cases status <;> rfl

namespace Workspace

variable {A P : Sparse α} {reg : Regularization α} {settings : Settings α}
  {events : List (Event α)} {w t : Workspace α}

/-- **After the calls of a record the workspace is built for the dual regularizer written last, and
    keeps the iterate that the calls leave behind.** -/
inductive Carries (A P : Sparse α) (reg : Regularization α) (settings : Settings α)
    (events : List (Event α)) : Workspace α → Prop
  | intro (s : IndirectSystem α) (current : Regularization α)
      (hprimal : current.primal = reg.primal)
      (hdual : current.dual = writtenDual reg.dual events)
      (hbuilt : s.Built A P current settings)
      (hcarried : (if s.hasPrevious then s.x else Vec.zeros A.cols) = carried A.cols events) :
      Carries A P reg settings events (.indirect s)

/-- A solve leaves its own iterate behind, if it is carried out. -/
theorem Carries.solve (hw : Carries A P reg settings events w) {B Q : Sparse α} {b z : Array α}
    {warm : Option (Array α)} {tol : α} {status : Status}
    (h : w.solve B Q b warm tol = .ok (t, z, status)) :
    Carries A P reg settings (.solve z status :: events) t := by
  rcases cases_solve h with ⟨rfl, -, rfl⟩ | ⟨-, -, h⟩
  · obtain ⟨s, current, hprimal, hdual, hbuilt, hcarried⟩ := hw
    exact ⟨s, current, hprimal, hdual, hbuilt, hcarried⟩
  obtain ⟨s, current, hprimal, hdual, hbuilt, -⟩ := hw
  obtain ⟨t, hsystem, rfl⟩ := solveChecked_indirect_eq_ok.1 h
  have hbuilt' := hbuilt.solve hsystem
  refine ⟨t, current, hprimal, hdual, hbuilt', ?_⟩
  obtain ⟨q, x₀, result, x, work, -, -, rfl, houtcome⟩ := IndirectSystem.cases_solve hsystem
  have hsize : x.size = A.cols := hbuilt'.size_x
  have hprevious : (s.solved result x work).hasPrevious = Vec.isFinite x := rfl
  rcases houtcome with ⟨hfinite, ⟨y, -, rfl⟩, rfl⟩ | ⟨hfinite, -, rfl⟩
  · have hextract : (x ++ y).extract 0 A.cols = x := by
      rw [← hsize]
      simp
    rw [if_pos (hprevious.trans hfinite), carried_solve, hextract]
    · cases result.converged <;> rfl
    · cases result.converged <;> exact nofun
  · rw [if_neg (by simp [hprevious, hfinite]), carried_solve]
    · rfl
    · exact nofun

/-- An update leaves its dual regularizer behind, unless it is refused. -/
theorem Carries.update (hw : Carries A P reg settings events w) {dual : Array α}
    {result : Except SystemError Unit} (h : w.update A P dual = .ok (t, result)) :
    Carries A P reg settings (.update dual result :: events) t := by
  have hrefused : passed result = false →
      Carries A P reg settings (.update dual result :: events) w := by
    intro hpassed
    obtain ⟨s, current, hprimal, hdual, hbuilt, hcarried⟩ := hw
    refine ⟨s, current, hprimal, ?_, hbuilt, hcarried⟩
    rw [writtenDual_update, hpassed]
    exact hdual
  rcases cases_update h with ⟨rfl, hpassed⟩ | ⟨hcheck, h⟩
  · exact hrefused hpassed
  obtain ⟨s, current, hprimal, hdual, hbuilt, hcarried⟩ := id hw
  obtain ⟨t, hsystem, rfl⟩ := updateChecked_indirect_eq_ok.1 h
  rcases IndirectSystem.cases_update hsystem with ⟨rfl, rfl⟩ | ⟨-, -, rfl, -⟩
  · exact hrefused rfl
  · let written : Regularization α :=
      { primal := reg.primal
        dual
        primal_ok := reg.primal_ok
        dual_ok := (checkUpdate_eq_ok.1 hcheck).2 }
    obtain ⟨hbuilt', hx, hprevious⟩ := hbuilt.update written hprimal.symm hsystem
    refine ⟨t, written, rfl, ?_, hbuilt', ?_⟩
    · rw [writtenDual_update]
      rfl
    · rw [hx, hprevious, hcarried]
      rfl

end Workspace

end Quasidefinite

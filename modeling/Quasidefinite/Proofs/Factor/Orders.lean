import Quasidefinite.Ordering.MinimumDegree
import Quasidefinite.Proofs.Factor.Factorization

/-!
# Orders that are asked for

An order that is asked for is tested on its own: it has to list each of its own positions once. That
it has as many positions as the matrix has columns is tested nowhere, unlike the number of the
expected signs. An order of another length passes the test. Construction then answers as long as
the first positions of the order are an order of the matrix by themselves
(`Factorization.orders_iff`), and leaves the positions after them in place; with every other such
order it faults, if only because it is too short (`Factorization.new_decided_by_order`).
-/

namespace Quasidefinite

/-! ## 1. The first positions of an order -/

/-- The first positions are listed among themselves if the inverse keeps them so. -/
theorem Permutation.IsInverse.perm_take_iff {perm label : Array Nat}
    (h : Permutation.IsInverse perm label) {n : Nat} :
    (perm.toList.take n).Perm (List.range n) ↔
      n ≤ perm.size ∧ ∀ j < n, label.getD j 0 < n := by
  constructor
  · intro hperm
    have hle : n ≤ perm.size := by
      have := hperm.length_eq
      rw [List.length_take, Array.length_toList, List.length_range] at this
      omega
    refine ⟨hle, fun j hj => ?_⟩
    -- position `j` is listed, at a place before `n`
    obtain ⟨i, hi, hget⟩ := List.mem_iff_getElem.1 (hperm.mem_iff.2 (List.mem_range.2 hj))
    rw [List.length_take, Array.length_toList] at hi
    rw [List.getElem_take, Array.getElem_toList, ← getD_of_lt perm i 0 (by omega)] at hget
    rw [← hget, h.label_perm i (by omega)]
    omega
  · rintro ⟨hle, hlabel⟩
    have hsize : (perm.extract 0 n).size = n := by simp [hle]
    have hextract := (h.extract hle hlabel).perm_range
    rwa [hsize, Array.toList_extract, List.extract_eq_take_drop, Nat.sub_zero, List.drop_zero]
      at hextract

namespace Factorization

variable {α : Type}

/-- An order serves a matrix if it lists its own positions, and the first of them among
    themselves. -/
theorem orders_iff {A : Sparse α} {perm : Array Nat} :
    Orders A perm ↔ perm.toList.Perm (List.range perm.size) ∧
      (perm.toList.take A.cols).Perm (List.range A.cols) := by
  constructor
  · rintro ⟨hle, label, hlabel, hkeeps⟩
    have hinverse := Permutation.isInverse_of_inverse? hlabel
    exact ⟨hinverse.perm_range, hinverse.perm_take_iff.2 ⟨hle, hkeeps⟩⟩
  · rintro ⟨hperm, htake⟩
    obtain ⟨label, hinverse⟩ := Permutation.exists_isInverse hperm
    obtain ⟨hle, hkeeps⟩ := hinverse.perm_take_iff.1 htake
    exact ⟨hle, label, hinverse.inverse?_eq, hkeeps⟩

/-! ## 2. Construction -/

variable [Scalar α] {ordering : FillOrdering} {A : Sparse α} {opts : FactorOptions α}
  {perm : Array Nat}

/-- An order that does not list its own positions is refused. -/
theorem new_of_not_perm (hcheck : (checkStructure A).run = .ok (.ok ()))
    (hchoose : (choosePerm ordering A opts).run = .ok (.ok perm))
    (hperm : ¬ perm.toList.Perm (List.range perm.size)) :
    (new ordering A opts).run = .ok (.error .invalidPermutation) := by
  have hnone : Permutation.inverse? perm = none := by
    rw [← Permutation.isSome_inverse?_iff, Option.not_isSome_iff_eq_none] at hperm
    exact hperm
  unfold new
  rw [Attempt.run_bind_of_ok _ hcheck, Attempt.run_bind_of_ok _ hchoose, hnone]
  rfl

/-- An order that lists its own positions, but does not serve the matrix, is not refused:
    relabelling faults. -/
theorem new_of_not_orders (hA : A.Shaped) (hfull : FullColumns A)
    (hcheck : (checkStructure A).run = .ok (.ok ()))
    (hchoose : (choosePerm ordering A opts).run = .ok (.ok perm))
    (hperm : perm.toList.Perm (List.range perm.size)) (horders : ¬ Orders A perm) :
    ∃ fault, (new ordering A opts).run = .error fault := by
  obtain ⟨label, hinverse⟩ := Permutation.exists_isInverse hperm
  unfold new
  rw [Attempt.run_bind_of_ok _ hcheck, Attempt.run_bind_of_ok _ hchoose, hinverse.inverse?_eq]
  cases hrelabel : A.relabel label with
  | error fault => exact ⟨fault, Attempt.run_bind_of_fault _ (Attempt.run_lift_of_error hrelabel)⟩
  | ok R => exact absurd (orders_of_relabel hA hfull hinverse.inverse?_eq hrelabel) horders

/-- **What construction makes of an order that is asked for.** It refuses the order if that does not
    list its own positions. Otherwise it answers, or meets a pivot that it cannot use, if the first
    positions are an order of the matrix by themselves; and it faults if they are not. -/
theorem new_decided_by_order (hformat : A.checkFormat.run = .ok (.ok ()))
    (hsquare : A.rows = A.cols) (hupper : A.Upper) (hfull : FullColumns A)
    (hsigns : ∀ s, opts.signs = some s → s.size = A.cols) (hopts : opts.perm = some perm) :
    (¬ perm.toList.Perm (List.range perm.size) →
      (new ordering A opts).run = .ok (.error .invalidPermutation)) ∧
    (perm.toList.Perm (List.range perm.size) →
      (perm.toList.take A.cols).Perm (List.range A.cols) →
      (∃ F, (new ordering A opts).run = .ok (.ok F) ∧ F.perm = perm) ∨
        ∃ k < A.cols, (new ordering A opts).run = .ok (.error (.zeroPivot k))) ∧
    (perm.toList.Perm (List.range perm.size) →
      ¬ (perm.toList.take A.cols).Perm (List.range A.cols) →
      ∃ fault, (new ordering A opts).run = .error fault) := by
  have hA := (Sparse.wellFormed_of_checkFormat hformat).toShaped
  have htriangle : A.Triangle := { hA with square := hsquare, upper := hupper }
  have hcheck := (checkStructure_eq_ok hA).2 ⟨hsquare, hupper, hfull⟩
  have hchoose : (choosePerm ordering A opts).run = .ok (.ok perm) := by
    rw [choosePerm, hopts]
    rfl
  refine ⟨new_of_not_perm hcheck hchoose, fun hperm htake => ?_, fun hperm htake => ?_⟩
  · obtain ⟨F, hF, hof, -, hrun⟩ := exists_new_of_orders htriangle hfull hchoose
      (orders_iff.2 ⟨hperm, htake⟩) hsigns
    cases hbad : F.plan.firstBad with
    | none => exact .inl ⟨F, by rw [hrun, map_outcome_eq_ok_iff.2 ⟨hbad, rfl⟩], hF⟩
    | some k =>
      have hk : k < F.plan.matrix.cols := List.mem_range.1 (List.mem_of_find?_eq_some hbad)
      exact .inr ⟨k, hk.trans_eq hof.planOf.cols_eq,
        by rw [hrun, map_outcome_eq_error_iff.2 hbad]⟩
  · exact new_of_not_orders hA hfull hcheck hchoose hperm fun h => htake (orders_iff.1 h).2

/-- A matrix with one row. -/
def single : Sparse Float where
  rows := 1
  cols := 1
  colStart := #[0, 1]
  rowIndex := #[0]
  value := #[1]

/-- An order that lists a position twice is refused, and one that is too short brings construction
    down. -/
theorem new_decided_by_order_single :
    (new .minimumDegree single { FactorOptions.standard with perm := some #[0, 0] }).run =
      .ok (.error .invalidPermutation) ∧
    ∃ fault, (new .minimumDegree single { FactorOptions.standard with perm := some #[] }).run =
      .error fault := by
  have hformat : single.checkFormat.run = .ok (.ok ()) := by decide +kernel
  have hupper : single.Upper := by decide +kernel
  have hfull : FullColumns single := by decide +kernel
  have hsigns : ∀ perm s, (({ FactorOptions.standard with perm } : FactorOptions Float)).signs =
      some s → s.size = single.cols := fun perm s hs => nomatch hs
  exact ⟨(new_decided_by_order hformat rfl hupper hfull (hsigns _) rfl).1 (by decide),
    (new_decided_by_order hformat rfl hupper hfull (hsigns _) rfl).2.2 (by decide) (by decide)⟩

/-- **Orders that are no orders of the matrix are not refused**: for a matrix with one row one of
    two positions is accepted, and an empty one is a fault. -/
theorem longer_order_accepted :
    (new .minimumDegree single { FactorOptions.standard with perm := some #[0, 1] }).answer?.map
      (fun F => F.perm) = some #[0, 1] ∧
    ¬ #[0, 1].toList.Perm (List.range single.cols) ∧
    (new .minimumDegree single { FactorOptions.standard with perm := some #[] }).run.isOk =
      false ∧
    ¬ (#[] : Array Nat).toList.Perm (List.range single.cols) := by
  decide +kernel

end Factorization

end Quasidefinite

import Quasidefinite.Factor.Basic
import Quasidefinite.Proofs.Factor.Relabel
import Quasidefinite.Proofs.Factor.Sweep
import Quasidefinite.Proofs.Factor.Triangular

/-!
# Factorizations in every arithmetic

What a factorization knows of its matrix besides the factors, `Factorization.PlanOf`, depends on
the matrix and the order alone (`PlanOf.unique`) and follows every change of values
(`PlanOf.overwrite`). Construction (`Factorization.exists_new`) and refactorization
(`exists_refactor`) end with the same outcome, which the plan decides: the first column without a
usable pivot, or the factors of the plan. The solve answers whenever the factors fit
(`exists_solve`).
-/

namespace Quasidefinite

variable {α : Type} [Scalar α]

/-! ## 1. The structure of the matrix -/

namespace Sparse

omit [Scalar α]

/-- The pattern of an upper triangle is in good form. -/
theorem Triangle.isSome_columns? {A : Sparse α} (h : A.Triangle) :
    A.pattern.columns?.isSome := by
  have hcolumn : ∀ j < A.cols, A.pattern.column? j = some (A.rowsOf j) := by
    intro j hj
    have hfirst : A.colStart[j]? = some (A.start j) := by
      rw [Array.getElem?_eq_getElem (by rw [h.size_colStart]; omega), start,
        getD_of_lt _ _ _ (by rw [h.size_colStart]; omega)]
    have hlast : A.colStart[j + 1]? = some (A.start (j + 1)) := by
      rw [Array.getElem?_eq_getElem (by rw [h.size_colStart]; omega), start,
        getD_of_lt _ _ _ (by rw [h.size_colStart]; omega)]
    have hle := h.start_le_succ j hj
    have hend := h.toShaped.start_le_size (j := j + 1) hj
    have hrows : (A.rowIndex.extract (A.start j) (A.start (j + 1))).toList = A.rowsOf j :=
      toList_extract A.rowIndex _ _ 0 hend
    have hall : (A.rowsOf j).all (· < A.cols) = true := by
      rw [List.all_eq_true]
      intro i hi
      obtain ⟨p, hp, rfl⟩ := List.mem_map.1 hi
      exact decide_eq_true (h.square ▸ h.row_lt p (h.toShaped.lt_size_of_mem hj hp))
    simp only [Pattern.column?, Sparse.pattern, hfirst, hlast, Option.bind_eq_bind,
      Option.bind_some, if_pos (And.intro hle hend), hrows]
    exact if_pos hall
  unfold Pattern.columns?
  by_cases hzero : A.pattern.size = 0
  · rw [if_pos hzero]
    rfl
  · have hstart : A.pattern.colStart[0]? = some 0 := by
      have hsize : 0 < A.colStart.size := by rw [h.size_colStart]; omega
      have hstart := h.start_zero
      unfold start at hstart
      rw [getD_of_lt _ _ _ hsize] at hstart
      unfold Sparse.pattern
      rw [Array.getElem?_eq_getElem hsize, hstart]
    have hcolumns : (List.range A.pattern.size).mapM A.pattern.column? =
        pure ((List.range A.cols).map A.rowsOf) :=
      mapM_eq_pure fun j hj => hcolumn j (List.mem_range.1 hj)
    rw [if_neg hzero, if_pos hstart, hcolumns]
    rfl

end Sparse

/-- The sign given for the pivot at position `k` of the order, or a positive one if none are
    given. -/
def FactorOptions.signAt {α : Type} (opts : FactorOptions α) (perm : Array Nat) (k : Nat) : Int :=
  match opts.signs with
  | none => 1
  | some signs => signs.getD (perm.getD k 0) 0

namespace Factorization

/-- Every column stores an entry. -/
def FullColumns (A : Sparse α) : Prop := ∀ j < A.cols, A.start j ≠ A.start (j + 1)

instance (A : Sparse α) : Decidable (FullColumns A) :=
  inferInstanceAs (Decidable (∀ j < A.cols, A.start j ≠ A.start (j + 1)))

omit [Scalar α] in
/-- The test of the structure passes exactly the upper triangles without empty columns. -/
theorem checkStructure_eq_ok {A : Sparse α} (hA : A.Shaped) :
    (checkStructure A).run = .ok (.ok ()) ↔ A.rows = A.cols ∧ A.Upper ∧ FullColumns A := by
  obtain ⟨upper, hupper, hiff⟩ := hA.exists_isUpper
  have hchain : chained (fun x y => decide (x ≠ y)) A.colStart.toList = true ↔ FullColumns A := by
    rw [chained_iff, Array.length_toList, hA.size_colStart]
    constructor
    · intro h j hj
      have := h j (by omega)
      rw [Sparse.getD_toList, Sparse.getD_toList] at this
      exact of_decide_eq_true this
    · intro h j hj
      rw [Sparse.getD_toList, Sparse.getD_toList]
      exact decide_eq_true (h j (by omega))
  unfold checkStructure
  simp only [Attempt.run_bind_eq_ok, Attempt.run_ensure_eq_ok, Attempt.run_lift_eq_ok, hupper,
    Except.ok.injEq, exists_const, exists_eq_left', Sparse.isSquare, beq_iff_eq, hiff]
  exact and_congr_right fun _ => and_congr_right fun _ => hchain

/-! ## 2. Plans -/

/-- The plan and the places are those of the matrix `A` under the order `perm`. -/
structure PlanOf (A : Sparse α) (perm : Array Nat) (opts : FactorOptions α)
    (plan : FactorPlan α) (place : Array Nat) : Prop where
  triangle : A.Triangle
  size_perm : perm.size = A.cols
  relabelOf : ∃ label, Permutation.inverse? perm = some label ∧
    A.RelabelOf label { matrix := plan.matrix, place }
  tree_eq : EliminationTree.ofUpper plan.matrix = .ok plan.tree
  signs_eq : (orderSigns A.cols perm opts.signs).run = .ok (.ok plan.signs)
  size_signs : plan.signs.size = A.cols
  regularizer_eq : plan.regularizer = opts.regularizer

namespace PlanOf

variable {A : Sparse α} {perm : Array Nat} {opts : FactorOptions α} {plan : FactorPlan α}
  {place : Array Nat}

/-- The labels under which the matrix was relabelled. -/
theorem exists_labels (h : PlanOf A perm opts plan place) :
    ∃ label, Permutation.IsInverse perm label ∧ A.Labels label ∧
      A.RelabelOf label { matrix := plan.matrix, place } := by
  obtain ⟨label, hinverse, hrelabel⟩ := h.relabelOf
  have hperm := Permutation.isInverse_of_inverse? hinverse
  exact ⟨label, hperm, Sparse.labels_of_isInverse h.triangle.square h.size_perm hperm, hrelabel⟩

theorem cols_eq (h : PlanOf A perm opts plan place) : plan.matrix.cols = A.cols := by
  obtain ⟨label, -, -, hrelabel⟩ := h.exists_labels
  exact hrelabel.layout.cols_eq

theorem size_place (h : PlanOf A perm opts plan place) : place.size = A.rowIndex.size := by
  obtain ⟨label, -, -, hrelabel⟩ := h.exists_labels
  exact hrelabel.size_place

/-- The expected signs of the pivots go where the columns go. -/
theorem getD_signs (h : PlanOf A perm opts plan place) {k : Nat} (hk : k < A.cols) :
    plan.signs.getD k 0 = opts.signAt perm k := by
  have hsigns := h.signs_eq
  unfold orderSigns at hsigns
  unfold FactorOptions.signAt
  cases hopts : opts.signs with
  | none =>
    rw [hopts] at hsigns
    rw [← Except.ok.inj (Except.ok.inj hsigns), getD_of_lt _ _ _ (by simpa using hk)]
    simp
  | some signs =>
    rw [hopts] at hsigns
    obtain ⟨⟨⟩, hsize, hsigns⟩ := Attempt.run_bind_eq_ok.1 hsigns
    rw [Attempt.run_ensure_eq_ok] at hsize
    obtain ⟨label, hinverse, -⟩ := h.exists_labels
    obtain ⟨ordered, hrun, -, hget⟩ := Permutation.exists_gather (0 : Int) (p := perm)
      (x := Array.replicate A.cols 1) (b := signs)
      (fun i hi => by
        rw [hsize, ← h.size_perm]
        exact hinverse.lt i hi) (by simp [h.size_perm])
    rw [Attempt.run_lift_of_ok hrun, Except.ok.injEq, Except.ok.injEq] at hsigns
    rw [← hsigns]
    exact hget k (h.size_perm.symm ▸ hk)

theorem regularizer_eq_none (h : PlanOf A perm opts plan place) (hreg : opts.regularize = false) :
    plan.regularizer = none := by
  rw [h.regularizer_eq, FactorOptions.regularizer, hreg]
  rfl

/-- The relabelled matrix stores no entry twice if the given one does not. -/
theorem distinct (h : PlanOf A perm opts plan place) (hdistinct : A.Distinct) :
    plan.matrix.Distinct := by
  obtain ⟨label, -, hlabels, hrelabel⟩ := h.exists_labels
  exact hrelabel.distinct h.triangle.toShaped hlabels h.triangle.upper hdistinct

theorem place_lt (h : PlanOf A perm opts plan place) {p : Nat} (hp : p < A.rowIndex.size) :
    place.getD p 0 < plan.matrix.value.size := by
  obtain ⟨label, -, -, hrelabel⟩ := h.exists_labels
  rw [hrelabel.size_value]
  exact hrelabel.place_lt hp

/-- The plan is in good form. -/
theorem proper (h : PlanOf A perm opts plan place) : plan.Proper := by
  obtain ⟨label, -, hlabels, hrelabel⟩ := h.exists_labels
  have hshaped := hrelabel.triangle.toShaped
  have hupper := hrelabel.triangle.upper
  obtain ⟨T, hT, htree⟩ := EliminationTree.exists_ofUpper hshaped.sliced hupper
  have hsame : plan.tree = T := Except.ok.inj (h.tree_eq.symm.trans hT)
  exact
    { shaped := hshaped
      upper := hupper
      tree := hsame ▸ htree
      size_signs := h.size_signs.trans h.cols_eq.symm }

/-- **The plan depends on the matrix and the order alone.** -/
theorem unique (h : PlanOf A perm opts plan place) {plan' : FactorPlan α} {place' : Array Nat}
    (h' : PlanOf A perm opts plan' place') : plan = plan' ∧ place = place' := by
  obtain ⟨label, hlabel, hrelabel⟩ := h.relabelOf
  obtain ⟨label', hlabel', hrelabel'⟩ := h'.relabelOf
  obtain rfl : label = label' := Option.some.inj (hlabel.symm.trans hlabel')
  have hsame := hrelabel.unique hrelabel'
  rw [Relabelled.mk.injEq] at hsame
  have htree := h.tree_eq
  rw [hsame.1, h'.tree_eq] at htree
  have hsigns := h.signs_eq.symm.trans h'.signs_eq
  have hreg := h.regularizer_eq.trans h'.regularizer_eq.symm
  refine ⟨?_, hsame.2⟩
  obtain ⟨⟩ := plan
  obtain ⟨⟩ := plan'
  simp_all

/-- The plan follows a change of one value. -/
theorem setValue (h : PlanOf A perm opts plan place) {p : Nat} (hp : p < A.rowIndex.size) (v : α) :
    PlanOf { A with value := A.value.setIfInBounds p v } perm opts
      { plan with matrix := { plan.matrix with
        value := plan.matrix.value.setIfInBounds (place.getD p 0) v } } place := by
  obtain ⟨label, hlabel, hrelabel⟩ := h.relabelOf
  have hpv : p < A.value.size := h.triangle.size_value ▸ hp
  have hqv := h.place_lt hp
  rw [setIfInBounds_of_lt _ _ _ hpv, setIfInBounds_of_lt _ _ _ hqv]
  exact
    { triangle :=
        { h.triangle with
          size_value := by rw [Array.size_set]; exact h.triangle.size_value }
      size_perm := h.size_perm
      relabelOf := ⟨label, hlabel, hrelabel.setValue hp v hpv hqv⟩
      tree_eq := h.tree_eq
      signs_eq := h.signs_eq
      size_signs := h.size_signs
      regularizer_eq := h.regularizer_eq }

/-- **The plan follows every change of values.** -/
theorem overwrite (h : PlanOf A perm opts plan place) (pairs : List (Nat × α))
    (hpairs : ∀ e ∈ pairs, e.1 < A.rowIndex.size) :
    PlanOf { A with value := Quasidefinite.overwrite A.value pairs } perm opts
      { plan with matrix := { plan.matrix with
        value := Quasidefinite.overwrite plan.matrix.value
          (pairs.map fun e => (place.getD e.1 0, e.2)) } } place := by
  induction pairs generalizing A plan with
  | nil => exact h
  | cons e es ih =>
    exact ih (h.setValue (hpairs e List.mem_cons_self) e.2)
      fun e' he' => hpairs e' (List.mem_cons_of_mem e he')

end PlanOf

/-! ## 3. Factorizations of a matrix -/

/-- The factorization belongs to the matrix `A`; what its factors hold is left open. -/
structure Of (A : Sparse α) (opts : FactorOptions α) (F : Factorization α) : Prop where
  planOf : PlanOf A F.perm opts F.plan F.place
  fits : F.plan.Fits F.factors

/-- What a sweep of the plan comes to. -/
def outcome (plan : FactorPlan α) : Except FactorError Unit :=
  match plan.firstBad with
  | some column => .error (.zeroPivot column)
  | none => .ok ()

theorem firstBad_of_outcome {plan : FactorPlan α} (h : outcome plan = .ok ()) :
    plan.firstBad = none := by
  unfold outcome at h
  split at h
  · cases h
  · assumption

/-- Construction fails where the plan has no usable pivot. -/
theorem map_outcome_eq_error_iff {plan : FactorPlan α} {F : Factorization α} {k : Nat} :
    (outcome plan).map (fun _ => F) = .error (.zeroPivot k) ↔ plan.firstBad = some k := by
  unfold outcome
  cases plan.firstBad <;> simp [Except.map]

/-- Construction answers if all pivots of the plan are usable. -/
theorem map_outcome_eq_ok_iff {plan : FactorPlan α} {F G : Factorization α} :
    (outcome plan).map (fun _ => F) = .ok G ↔ plan.firstBad = none ∧ F = G := by
  unfold outcome
  cases plan.firstBad <;> simp [Except.map]

/-- The order is a permutation that keeps the columns of the matrix among themselves. It may be
    longer than the matrix. -/
structure Orders (A : Sparse α) (perm : Array Nat) : Prop where
  le_size : A.cols ≤ perm.size
  keeps : ∃ label, Permutation.inverse? perm = some label ∧
    ∀ j < A.cols, label.getD j 0 < A.cols

/-- The factorization with its order cut to the columns of the matrix. -/
def trimmed (F : Factorization α) (n : Nat) : Factorization α :=
  { F with perm := F.perm.extract 0 n }

omit [Scalar α] in
theorem trimmed_of_size {F : Factorization α} {n : Nat} (h : F.perm.size = n) :
    F.trimmed n = F := by
  unfold trimmed
  rw [← h, Array.extract_size]

omit [Scalar α] in
/-- A permutation of the columns keeps them among themselves. -/
theorem orders_of_size {A : Sparse α} {perm : Array Nat} (hsize : perm.size = A.cols)
    (hinverse : (Permutation.inverse? perm).isSome) : Orders A perm := by
  obtain ⟨label, hlabel⟩ := Option.isSome_iff_exists.1 hinverse
  have hlt := (Permutation.isInverse_of_inverse? hlabel).label_lt
  rw [hsize] at hlt
  exact ⟨Nat.le_of_eq hsize.symm, label, hlabel, hlt⟩

/-- Relabelling answers only under an order of the matrix. -/
theorem orders_of_relabel {A : Sparse α} (hA : A.Shaped) (hfull : FullColumns A)
    {perm label : Array Nat} (hlabel : Permutation.inverse? perm = some label) {R : Relabelled α}
    (h : A.relabel label = .ok R) : Orders A perm := by
  have hbelow := hA.label_lt_of_relabel hfull h
  have hsize := (Permutation.isInverse_of_inverse? hlabel).size_eq
  refine ⟨?_, label, hlabel, fun j hj => (hbelow j hj).2⟩
  rcases Nat.eq_zero_or_pos A.cols with hzero | hpos
  · omega
  · have := (hbelow (A.cols - 1) (by omega)).1
    omega

/-- The factors are those of the plan if every pivot is usable. -/
def Holds (F : Factorization α) : Prop := F.plan.firstBad = none → F.plan.FactorsOf F.factors

/-- The signs of the pivots are put in order. -/
theorem exists_orderSigns {n : Nat} {perm label : Array Nat} (hperm : perm.size = n)
    (hinverse : Permutation.IsInverse perm label) {signs : Option (Array Int)}
    (hsigns : ∀ s, signs = some s → s.size = n) :
    ∃ ordered, (orderSigns n perm signs).run = .ok (.ok ordered) ∧ ordered.size = n := by
  cases signs with
  | none => exact ⟨Array.replicate n 1, rfl, by simp⟩
  | some s =>
    have hs := hsigns s rfl
    obtain ⟨ordered, hrun, hsize, -⟩ := Permutation.exists_gather (0 : Int) (p := perm)
      (x := Array.replicate n 1) (b := s)
      (fun i hi => by
        rw [hs, ← hperm]
        exact hinverse.lt i hi) (by simp [hperm])
    refine ⟨ordered, ?_, hsize.trans hperm⟩
    unfold orderSigns
    rw [Attempt.run_bind_of_ok _ (Attempt.run_ensure_of hs)]
    exact Attempt.run_lift_of_ok hrun

omit [Scalar α] in
/-- The signs of the pivots are put in order by as much of the order as there are pivots. -/
theorem orderSigns_extract (n : Nat) (perm : Array Nat) (signs : Option (Array Int)) :
    orderSigns n (perm.extract 0 n) signs = orderSigns n perm signs := by
  cases signs with
  | none => rfl
  | some s =>
    have hgather : Permutation.gather (Array.replicate n 1) s (perm.extract 0 n) =
        Permutation.gather (Array.replicate n 1) s perm :=
      Permutation.gather_extract perm (by simp)
    unfold orderSigns
    dsimp only
    rw [hgather]

/-- **Construction comes to what the plan decides**, for every matrix in good form and every order
    of it. -/
theorem exists_new_of_orders {ordering : FillOrdering} {A : Sparse α} {opts : FactorOptions α}
    (hA : A.Triangle) (hfull : FullColumns A) {perm : Array Nat}
    (hchoose : (choosePerm ordering A opts).run = .ok (.ok perm)) (horders : Orders A perm)
    (hsigns : ∀ s, opts.signs = some s → s.size = A.cols) :
    ∃ F : Factorization α, F.perm = perm ∧ Of A opts (F.trimmed A.cols) ∧ F.Holds ∧
      (new ordering A opts).run = .ok ((outcome F.plan).map fun _ => F) := by
  obtain ⟨label, hlabel, hkeeps⟩ := horders.keeps
  have hperm := (Permutation.isInverse_of_inverse? hlabel).extract horders.le_size hkeeps
  have hsize : (perm.extract 0 A.cols).size = A.cols := by simp [horders.le_size]
  have hlabels := Sparse.labels_of_isInverse hA.square hsize hperm
  obtain ⟨R, hR, hrelabel⟩ := hA.toShaped.exists_relabel hlabels
  rw [hA.toShaped.relabel_extract hA.square] at hR
  obtain ⟨signs, hsignsRun, hsignsSize⟩ := exists_orderSigns hsize hperm hsigns
  obtain ⟨T, hT, -⟩ := EliminationTree.exists_ofUpper hrelabel.triangle.toShaped.sliced
    (hrelabel.triangle.upper)
  let plan : FactorPlan α :=
    { matrix := R.matrix, tree := T, signs, regularizer := opts.regularizer }
  have hplan : PlanOf A (perm.extract 0 A.cols) opts plan R.place :=
    { triangle := hA
      size_perm := hsize
      relabelOf := ⟨_, hperm.inverse?_eq, hrelabel⟩
      tree_eq := hT
      signs_eq := hsignsRun
      size_signs := hsignsSize
      regularizer_eq := rfl }
  obtain ⟨factors, hfactor, hfits, hholds⟩ :=
    FactorPlan.exists_factor hplan.proper (FactorPlan.fits_blank hplan.proper)
  refine ⟨{ perm, plan, place := R.place, factors }, rfl, ⟨hplan, hfits⟩, hholds, ?_⟩
  have hcheck := (checkStructure_eq_ok hA.toShaped).2 ⟨hA.square, hA.upper, hfull⟩
  rw [orderSigns_extract] at hsignsRun
  unfold new
  rw [Attempt.run_bind_of_ok _ hcheck, Attempt.run_bind_of_ok _ hchoose, hlabel,
    Attempt.run_bind_of_ok _ (Attempt.run_lift_of_ok hR), Attempt.run_bind_of_ok _ hsignsRun,
    Attempt.run_bind_of_ok _ (Attempt.run_lift_of_ok hT)]
  dsimp only
  rw [Attempt.run_bind_of_ok _ (Attempt.run_lift_of_ok hfactor)]
  unfold outcome
  cases plan.firstBad with
  | none => rfl
  | some column => rfl

/-- Construction comes to what the plan decides, for every matrix in good form and every
    permutation of its columns. -/
theorem exists_new {ordering : FillOrdering} {A : Sparse α} {opts : FactorOptions α}
    (hA : A.Triangle) (hfull : FullColumns A) {perm : Array Nat}
    (hchoose : (choosePerm ordering A opts).run = .ok (.ok perm)) (hsize : perm.size = A.cols)
    (hinverse : (Permutation.inverse? perm).isSome)
    (hsigns : ∀ s, opts.signs = some s → s.size = A.cols) :
    ∃ F : Factorization α, F.perm = perm ∧ Of A opts F ∧ F.Holds ∧
      (new ordering A opts).run = .ok ((outcome F.plan).map fun _ => F) := by
  obtain ⟨F, hperm, hof, hholds, hrun⟩ := exists_new_of_orders hA hfull hchoose
    (orders_of_size hsize hinverse) hsigns
  rw [trimmed_of_size (hperm ▸ hsize)] at hof
  exact ⟨F, hperm, hof, hholds, hrun⟩

omit [Scalar α] in
/-- An order is found unless one is asked for that is none. -/
theorem exists_choosePerm (ordering : FillOrdering) {A : Sparse α} (opts : FactorOptions α)
    (hA : A.Triangle) (hperm : ∀ perm, opts.perm = some perm →
      perm.size = A.cols ∧ (Permutation.inverse? perm).isSome) :
    ∃ perm, (choosePerm ordering A opts).run = .ok (.ok perm) ∧ perm.size = A.cols ∧
      (Permutation.inverse? perm).isSome ∧
      (opts.perm = none → ordering.order? A.pattern opts.denseScale = some perm) := by
  unfold choosePerm
  cases hopts : opts.perm with
  | some perm => exact ⟨perm, rfl, (hperm perm hopts).1, (hperm perm hopts).2, by nofun⟩
  | none =>
    obtain ⟨perm, horder⟩ := Option.isSome_iff_exists.1
      (ordering.isSome_order opts.denseScale hA.isSome_columns?)
    dsimp only
    rw [horder]
    exact ⟨perm, rfl, ordering.size_order horder, ordering.inverse_order horder, fun _ => rfl⟩

omit [Scalar α] in
/-- The order has the size of the matrix. -/
theorem size_of_choosePerm {ordering : FillOrdering} {A : Sparse α} {opts : FactorOptions α}
    (hsize : ∀ perm, opts.perm = some perm → perm.size = A.cols) {perm : Array Nat}
    (h : (choosePerm ordering A opts).run = .ok (.ok perm)) : perm.size = A.cols := by
  unfold choosePerm at h
  split at h
  · rename_i p hp
    obtain rfl := Attempt.run_pure_eq_ok.1 h
    exact hsize p hp
  · split at h
    · rename_i p hp
      obtain rfl := Attempt.run_pure_eq_ok.1 h
      exact ordering.size_order hp
    · cases h

omit [Scalar α] in
/-- Signs that can be put in order have the size of the matrix. -/
theorem size_of_orderSigns {n : Nat} {perm : Array Nat} {signs : Option (Array Int)}
    {ordered : Array Int} (h : (orderSigns n perm signs).run = .ok (.ok ordered)) :
    ∀ s, signs = some s → s.size = n := by
  rintro s rfl
  obtain ⟨⟨⟩, hsize, -⟩ := Attempt.run_bind_eq_ok.1 h
  exact Attempt.run_ensure_eq_ok.1 hsize

/-- Construction that answers went through a sound structure, an order of the matrix, and signs
    for all its columns. -/
theorem orders_of_new {ordering : FillOrdering} {A : Sparse α} {opts : FactorOptions α}
    (hA : A.Shaped) {F : Factorization α} (hrun : (new ordering A opts).run = .ok (.ok F)) :
    A.Triangle ∧ FullColumns A ∧ (choosePerm ordering A opts).run = .ok (.ok F.perm) ∧
      Orders A F.perm ∧ ∀ s, opts.signs = some s → s.size = A.cols := by
  obtain ⟨⟨⟩, hcheck, h⟩ := Attempt.run_bind_eq_ok.1 hrun
  obtain ⟨perm, hchoose, h⟩ := Attempt.run_bind_eq_ok.1 h
  obtain ⟨hsquare, hupper, hfull⟩ := (checkStructure_eq_ok hA).1 hcheck
  cases hlabel : Permutation.inverse? perm with
  | none =>
    rw [hlabel] at h
    cases h
  | some label =>
    rw [hlabel] at h
    obtain ⟨R, hR, h⟩ := Attempt.run_bind_eq_ok.1 h
    obtain ⟨signs, hsigns, h⟩ := Attempt.run_bind_eq_ok.1 h
    obtain ⟨tree, -, h⟩ := Attempt.run_bind_eq_ok.1 h
    obtain ⟨⟨factors, failed⟩, -, h⟩ := Attempt.run_bind_eq_ok.1 h
    obtain rfl : F.perm = perm := by
      cases failed with
      | none => exact (Attempt.run_pure_eq_ok.1 h) ▸ rfl
      | some column => cases h
    exact ⟨{ hA with square := hsquare, upper := hupper }, hfull, hchoose,
      orders_of_relabel hA hfull hlabel (Attempt.run_lift_eq_ok.1 hR), size_of_orderSigns hsigns⟩

/-- **Whatever construction answers with is a factorization of the matrix**, by as much of its
    order as the matrix has columns. -/
theorem trimmed_of_new {ordering : FillOrdering} {A : Sparse α} {opts : FactorOptions α}
    (hA : A.Shaped) {F : Factorization α} (hrun : (new ordering A opts).run = .ok (.ok F)) :
    Of A opts (F.trimmed A.cols) ∧ outcome F.plan = .ok () ∧ F.Holds := by
  obtain ⟨htriangle, hfull, hchoose, horders, hsigns⟩ := orders_of_new hA hrun
  obtain ⟨F', -, hof, hholds, hnew⟩ := exists_new_of_orders htriangle hfull hchoose horders hsigns
  rw [hrun, Except.ok.injEq] at hnew
  cases houtcome : outcome F'.plan with
  | error e =>
    rw [houtcome] at hnew
    cases hnew
  | ok u =>
    rw [houtcome] at hnew
    obtain rfl : F = F' := Except.ok.inj hnew
    exact ⟨hof, houtcome, hholds⟩

/-- Whatever construction answers with is a factorization of the matrix. -/
theorem of_new {ordering : FillOrdering} {A : Sparse α} {opts : FactorOptions α} (hA : A.Shaped)
    (hsize : ∀ perm, opts.perm = some perm → perm.size = A.cols) {F : Factorization α}
    (hrun : (new ordering A opts).run = .ok (.ok F)) :
    (choosePerm ordering A opts).run = .ok (.ok F.perm) ∧ Of A opts F ∧
      outcome F.plan = .ok () ∧ F.Holds := by
  obtain ⟨-, -, hchoose, -, -⟩ := orders_of_new hA hrun
  obtain ⟨hof, houtcome, hholds⟩ := trimmed_of_new hA hrun
  rw [trimmed_of_size (size_of_choosePerm hsize hchoose)] at hof
  exact ⟨hchoose, hof, houtcome, hholds⟩

namespace Of

variable {A : Sparse α} {opts : FactorOptions α} {F : Factorization α} (h : Of A opts F)

include h in
/-- The number of entries in the factors is settled by the plan. -/
theorem storedCount_eq : F.storedCount =
    .ok (F.plan.colStarts.getD F.plan.matrix.cols 0 + F.plan.matrix.cols) := by
  have hstart := h.fits.shaped.start_cols
  unfold Sparse.start at hstart
  rw [h.fits.colStart_eq, h.fits.cols_eq] at hstart
  unfold storedCount
  rw [h.fits.shaped.storedCount_eq, Checked.ok_bind, h.fits.size_pivot, hstart]
  rfl

/-! ## 4. Changes of values -/

include h in
/-- **Factoring again comes to what the plan decides**, whatever the factors held before. -/
theorem exists_refactor : ∃ factors,
    F.refactor = .ok ({ F with factors }, outcome F.plan) ∧ Of A opts { F with factors } ∧
      Holds { F with factors } := by
  obtain ⟨factors, hfactor, hfits, hholds⟩ := FactorPlan.exists_factor h.planOf.proper h.fits
  refine ⟨factors, ?_, ⟨h.planOf, hfits⟩, hholds⟩
  unfold refactor
  rw [hfactor, Checked.ok_bind]
  rfl

include h in
/-- **Changed values reach the places of their entries.** -/
theorem exists_updateValues {indices : Array Nat} {values : Array α}
    (hsize : indices.size = values.size) (hlt : ∀ i ∈ indices, i < A.rowIndex.size) :
    ∃ F' : Factorization α, (F.updateValues indices values).run = .ok (.ok F') ∧
      F'.perm = F.perm ∧ F'.factors = F.factors ∧
      Of { A with value := overwrite A.value (indices.toList.zip values.toList) } opts F' := by
  have hpairs : ∀ e ∈ indices.toList.zip values.toList, e.1 < A.rowIndex.size := fun e he =>
    hlt e.1 (Array.mem_toList_iff.1 (List.of_mem_zip he).1)
  have hplace := h.planOf.size_place
  have hwrite : F.writeValues indices values = .ok (overwrite F.plan.matrix.value
      ((indices.toList.zip values.toList).map fun e => (F.place.getD e.1 0, e.2))) := by
    rw [← Checked.foldlM_store_eq _ _ fun e he => ?_, writeValues, List.foldlM_map]
    · refine Checked.foldlM_congr (fun e he value => ?_) _
      show (do Checked.store value (← Checked.entry F.place e.1) e.2) = _
      rw [Checked.entry_eq _ _ 0 (hplace ▸ hpairs e he), Checked.ok_bind]
    · obtain ⟨e', he', rfl⟩ := List.mem_map.1 he
      exact h.planOf.place_lt (hpairs e' he')
  have hall : indices.all (· < F.place.size) = true := by
    rw [Array.all_eq_true_iff_forall_mem]
    intro i hi
    exact decide_eq_true (hplace ▸ hlt i hi)
  refine ⟨{ F with plan := { F.plan with matrix := { F.plan.matrix with
      value := overwrite F.plan.matrix.value
        ((indices.toList.zip values.toList).map fun e => (F.place.getD e.1 0, e.2)) } } },
    ?_, rfl, rfl, ⟨h.planOf.overwrite _ hpairs, { h.fits with }⟩⟩
  unfold updateValues
  rw [Attempt.run_bind_of_ok _ (Attempt.run_ensure_of hsize),
    Attempt.run_bind_of_ok _ (Attempt.run_ensure_of hall),
    Attempt.run_bind_of_ok _ (Attempt.run_lift_of_ok hwrite)]
  rfl

/-! ## 5. Solving -/

/-- The right hand side in the order of the factors. -/
def ordered (n : Nat) (perm : Array Nat) (b : Array α) (i : Nat) : α :=
  if i < n then b.getD (perm.getD i 0) 0 else 0

/-- **The solve answers** with the sweep through the factors, put back in the order of the
    matrix, of which it reads as much as the matrix has columns. -/
theorem exists_solve_of_trimmed {F : Factorization α} (h : Of A opts (F.trimmed A.cols))
    {label : Array Nat} (hinverse : Permutation.IsInverse (F.perm.extract 0 A.cols) label)
    {b : Array α} (hb : b.size = A.cols) :
    ∃ x, F.solve b = .ok x ∧ x.size = A.cols ∧
      ∀ j < A.cols, x.getD j 0 = F.factors.lower.factorSweep A.cols
        (fun i => F.factors.pivotInv.getD i 0) (ordered A.cols (F.perm.extract 0 A.cols) b)
        (label.getD j 0) := by
  have hn : F.plan.matrix.cols = A.cols := h.planOf.cols_eq
  have hperm : (F.perm.extract 0 A.cols).size = A.cols := h.planOf.size_perm
  have hfits : F.plan.Fits F.factors := h.fits
  have hsquare : F.factors.lower.rows = F.factors.lower.cols :=
    hfits.rows_eq.trans hfits.cols_eq.symm
  have hcols : F.factors.lower.cols = A.cols := hfits.cols_eq.trans hn
  obtain ⟨y, hy, hysize, hyeq⟩ := Permutation.exists_gather (0 : α) (p := F.perm.extract 0 A.cols)
    (x := Vec.zeros b.size) (b := b)
    (fun i hi => Nat.lt_of_lt_of_eq (hinverse.lt i hi) (hperm.trans hb.symm))
    (by rw [hperm]; simp [Vec.zeros, hb])
  have hinv : F.factors.pivotInv.size = F.factors.lower.cols := by
    rw [hfits.size_pivotInv, hcols, hn]
  obtain ⟨z, hz, hzsize, hzeq⟩ := hfits.shaped.exists_factorSolve hsquare hinv (b := y)
    (by rw [hysize, hperm, hcols])
  obtain ⟨x, hx, hxsize, hxeq⟩ := Permutation.exists_scatter (0 : α) hinverse (x := b) (b := z)
    (by rw [hb, hperm]) (by rw [hzsize, hcols, hperm])
  rw [Permutation.gather_extract _ (by simp [Vec.zeros, hb])] at hy
  rw [Permutation.scatter_extract _ (Nat.le_of_eq (hzsize.trans hcols))] at hx
  refine ⟨x, ?_, hxsize.trans hperm, fun j hj => ?_⟩
  · unfold solve
    rw [Checked.require_of _ _ (by rw [hb, hfits.size_pivot, hn]), Checked.ok_bind, hy,
      Checked.ok_bind, hz, Checked.ok_bind, hx]
  · have hgathered : (fun i => y.getD i 0) = ordered A.cols (F.perm.extract 0 A.cols) b := by
      funext i
      unfold ordered
      split
      · rename_i hi
        exact hyeq i (hperm.symm ▸ hi)
      · exact getD_of_le _ _ _ (by omega)
    rw [hgathered, hcols] at hzeq
    rw [hxeq j (hperm.symm ▸ hj), ← hzeq]

include h in
/-- The solve answers with the sweep through the factors, put back in the order of the matrix. -/
theorem exists_solve {label : Array Nat} (hinverse : Permutation.IsInverse F.perm label)
    {b : Array α} (hb : b.size = A.cols) :
    ∃ x, F.solve b = .ok x ∧ x.size = A.cols ∧
      ∀ j < A.cols, x.getD j 0 = F.factors.lower.factorSweep A.cols
        (fun i => F.factors.pivotInv.getD i 0) (ordered A.cols F.perm b) (label.getD j 0) := by
  have hsize := h.planOf.size_perm
  have hextract : F.perm.extract 0 A.cols = F.perm := by rw [← hsize, Array.extract_size]
  have hsolve := exists_solve_of_trimmed ((trimmed_of_size hsize).symm ▸ h)
    (hextract.symm ▸ hinverse) hb
  rwa [hextract] at hsolve

end Of

end Factorization

end Quasidefinite

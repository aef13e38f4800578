import Quasidefinite.Proofs.Factor.Course
import Quasidefinite.Proofs.Factor.Refactoring

/-!
# Patterns and values of the factors

The elimination tree counts the entries of every column of the factor before any value is known;
the sweep finds these entries by walking over the rows of the matrix. This module says that the two
agree for every triangle and every order of it (`Factorization.phases_agree`): no step of a
factorization goes astray, whatever the values, and what a complete factorization leaves behind has
a pattern of its own (`FactorPlan.Complete`) in which nothing of earlier factors is left.

That pattern is settled by the pattern of the matrix and the order (`FactorsOf.pattern_eq`): so it
is the same for matrices over different numbers, with different signs, regularizers and values, and
after every construction and refactorization that succeeds (`Factorization.Factored`).
-/

namespace Quasidefinite

variable {α β : Type}

/-! ## 1. Matrices with one pattern -/

namespace Sparse

theorem pattern_eq_iff {A : Sparse α} {B : Sparse β} : A.pattern = B.pattern ↔
    A.cols = B.cols ∧ A.colStart = B.colStart ∧ A.rowIndex = B.rowIndex := by
  simp [pattern]

/-- What is read off the column starts and the rows alone. -/
theorem rowsOf_of_pattern {A : Sparse α} {B : Sparse β} (h : A.pattern = B.pattern) (j : Nat) :
    A.rowsOf j = B.rowsOf j := by
  obtain ⟨-, hstart, hrows⟩ := pattern_eq_iff.1 h
  unfold rowsOf positions row start
  rw [hstart, hrows]

theorem columnRows_of_pattern {A : Sparse α} {B : Sparse β} (h : A.pattern = B.pattern) (j : Nat) :
    A.columnRows j = B.columnRows j := by
  obtain ⟨-, hstart, hrows⟩ := pattern_eq_iff.1 h
  unfold columnRows
  rw [hstart, hrows]

/-- Matrices with one pattern have one elimination tree. -/
theorem ofUpper_of_pattern {A : Sparse α} {B : Sparse β} (h : A.pattern = B.pattern) :
    EliminationTree.ofUpper A = EliminationTree.ofUpper B := by
  obtain ⟨hcols, -, -⟩ := pattern_eq_iff.1 h
  have hgrow : EliminationTree.growColumn A = EliminationTree.growColumn B := by
    funext t j
    unfold EliminationTree.growColumn
    rw [columnRows_of_pattern h, hcols]
  unfold EliminationTree.ofUpper
  rw [hgrow, hcols]

variable [Scalar α] [Scalar β]

/-- The pattern of a layout is settled by the positions of the entries. -/
theorem LayoutOf.pattern_eq {n : Nat} {ts : List (Triplet α)} {us : List (Triplet β)}
    {M : Sparse α} {N : Sparse β} (hM : LayoutOf n ts M) (hN : LayoutOf n us N)
    (hsame : ts.map (fun t => (t.row, t.col)) = us.map fun t => (t.row, t.col)) :
    M.pattern = N.pattern := by
  have hlength : ts.length = us.length := by simpa using congrArg List.length hsame
  have hcols : ts.map Triplet.col = us.map Triplet.col := by
    simpa [Function.comp_def] using congrArg (List.map Prod.snd) hsame
  have hrow : ∀ t (ht : t < ts.length) (hu : t < us.length), ts[t].row = us[t].row := by
    intro t ht hu
    have hget := congrArg (fun l => l[t]?) hsame
    simp [ht, hu] at hget
    exact hget.1
  refine pattern_eq_iff.2 ⟨hM.cols_eq.trans hN.cols_eq.symm, ?_, ?_⟩
  · refine ext_getD 0 (hM.size_colStart.trans hN.size_colStart.symm) fun j hj => ?_
    rw [hM.size_colStart] at hj
    have hstart := hM.start_eq j (by omega)
    rw [hcols, ← hN.start_eq j (by omega)] at hstart
    exact hstart
  · refine ext_getD 0 (by rw [hM.size_rowIndex, hN.size_rowIndex, hlength]) fun q hq => ?_
    rw [hM.size_rowIndex] at hq
    obtain ⟨t, ht, rfl⟩ := LayoutOf.exists_placeIn hq
    have hplace := hM.row_placeIn t ht
    rw [hrow t ht (hlength ▸ ht), ← hN.row_placeIn t (hlength ▸ ht), ← hcols] at hplace
    exact hplace

/-- Matrices with one pattern have one pattern after relabelling. -/
theorem RelabelOf.pattern_eq {A : Sparse α} {B : Sparse β} (h : A.pattern = B.pattern)
    {label : Array Nat} {R : Relabelled α} {S : Relabelled β} (hR : A.RelabelOf label R)
    (hS : B.RelabelOf label S) : R.matrix.pattern = S.matrix.pattern := by
  obtain ⟨hcols, hstart, hrows⟩ := pattern_eq_iff.1 h
  refine hR.layout.pattern_eq (hcols ▸ hS.layout) ?_
  obtain ⟨_, _, _, _, _⟩ := A
  obtain ⟨_, _, _, _, _⟩ := B
  cases hcols
  cases hstart
  cases hrows
  simp only [triplets, List.map_map]
  rfl

end Sparse

/-! ## 2. Plans of one pattern -/

namespace FactorPlan

variable [Scalar α] [Scalar β]

/-- The plan is one for the triangle `A` in the order `perm`, with any signs and any
    regularizer. -/
structure IsFor (plan : FactorPlan α) (A : Sparse α) (perm : Array Nat) : Prop where
  relabel_eq : ∃ label place, Permutation.inverse? perm = some label ∧
    A.relabel label = .ok { matrix := plan.matrix, place }
  tree_eq : EliminationTree.ofUpper plan.matrix = .ok plan.tree
  size_signs : plan.signs.size = A.cols

/-- What a complete factorization leaves behind: a matrix in form whose columns hold as many
    entries as the tree counts, sorted and below the diagonal. -/
structure Complete (plan : FactorPlan α) (F : Factors α) : Prop where
  shaped : F.lower.Shaped
  rows_eq : F.lower.rows = plan.matrix.cols
  cols_eq : F.lower.cols = plan.matrix.cols
  start_succ : ∀ c < plan.matrix.cols,
    F.lower.start (c + 1) = F.lower.start c + plan.tree.count.getD c 0
  sorted : ∀ c < plan.matrix.cols, (F.lower.rowsOf c).Pairwise (· < ·)
  below : ∀ c < plan.matrix.cols, ∀ i ∈ F.lower.rowsOf c, c < i ∧ i < plan.matrix.cols

/-- The rows of a column of the factor are those in whose reach the column lies. -/
theorem FactorsOf.rowsOf_eq {plan : FactorPlan α} (hplan : plan.Proper) {F : Factors α}
    (hF : plan.FactorsOf F) {c : Nat} (hc : c < plan.matrix.cols) : F.lower.rowsOf c =
      (List.range plan.matrix.cols).filter fun k => c ∈ plan.reach k := by
  rw [← Sparse.map_fst_entries, hF.entries_eq c hc]
  exact (Sweep.View.sound_after hplan (Nat.le_refl _)).rows_eq c

theorem FactorsOf.complete {plan : FactorPlan α} (hplan : plan.Proper) {F : Factors α}
    (hF : plan.FactorsOf F) : plan.Complete F where
  shaped := hF.shaped
  rows_eq := hF.rows_eq
  cols_eq := hF.cols_eq
  start_succ c hc := hF.start_succ hplan hc
  sorted c hc := by
    rw [hF.rowsOf_eq hplan hc]
    exact List.pairwise_lt_range.filter _
  below c hc i hi := by
    rw [hF.rowsOf_eq hplan hc, List.mem_filter, List.mem_range] at hi
    exact ⟨lt_of_mem_reach (of_decide_eq_true hi.2), hi.1⟩

/-- **The pattern of the factor is settled by the pattern of the matrix and its tree.** -/
theorem FactorsOf.pattern_eq {plan : FactorPlan α} {plan' : FactorPlan β} (hplan : plan.Proper)
    (hplan' : plan'.Proper) (hpattern : plan.matrix.pattern = plan'.matrix.pattern)
    (htree : plan.tree = plan'.tree) {F : Factors α} {G : Factors β} (hF : plan.FactorsOf F)
    (hG : plan'.FactorsOf G) : F.lower.pattern = G.lower.pattern := by
  obtain ⟨hcols, -, -⟩ := Sparse.pattern_eq_iff.1 hpattern
  have hcolStart : F.lower.colStart = G.lower.colStart := by
    rw [hF.colStart_eq, hG.colStart_eq, colStarts, colStarts, htree]
  have hreach : ∀ k, plan.reach k = plan'.reach k := fun k => by
    rw [reach, reach, htree, Sparse.rowsOf_of_pattern hpattern]
  have hlower : F.lower.cols = G.lower.cols := by rw [hF.cols_eq, hG.cols_eq, hcols]
  refine Sparse.pattern_eq_iff.2 ⟨hlower, hcolStart, ?_⟩
  refine hF.shaped.ext_rows hG.shaped hlower hcolStart fun c hc => ?_
  rw [hF.cols_eq] at hc
  rw [hF.rowsOf_eq hplan hc, hG.rowsOf_eq hplan' (hcols ▸ hc), hcols]
  simp only [hreach]

namespace IsFor

variable {plan : FactorPlan α} {A : Sparse α} {perm : Array Nat}

theorem exists_relabelOf (h : plan.IsFor A perm) (hA : A.Triangle) (hsize : perm.size = A.cols) :
    ∃ label place, Permutation.inverse? perm = some label ∧
      A.RelabelOf label { matrix := plan.matrix, place } := by
  obtain ⟨label, place, hlabel, hrelabel⟩ := h.relabel_eq
  have hlabels := Sparse.labels_of_isInverse hA.square hsize
    (Permutation.isInverse_of_inverse? hlabel)
  obtain ⟨R, hR, hof⟩ := hA.toShaped.exists_relabel hlabels
  obtain rfl := Except.ok.inj (hR.symm.trans hrelabel)
  exact ⟨label, place, hlabel, hof⟩

theorem proper (h : plan.IsFor A perm) (hA : A.Triangle) (hsize : perm.size = A.cols) :
    plan.Proper := by
  obtain ⟨label, place, -, hof⟩ := h.exists_relabelOf hA hsize
  obtain ⟨T, hT, htree⟩ :=
    EliminationTree.exists_ofUpper hof.triangle.toShaped.sliced hof.triangle.upper
  obtain rfl := Except.ok.inj (hT.symm.trans h.tree_eq)
  exact
    { shaped := hof.triangle.toShaped
      upper := hof.triangle.upper
      tree := htree
      size_signs := h.size_signs.trans hof.layout.cols_eq.symm }

theorem cols_eq (h : plan.IsFor A perm) (hA : A.Triangle) (hsize : perm.size = A.cols) :
    plan.matrix.cols = A.cols := by
  obtain ⟨_, _, -, hof⟩ := h.exists_relabelOf hA hsize
  exact hof.layout.cols_eq

/-- Plans for matrices with one pattern in one order have one pattern and one tree. -/
theorem same (h : plan.IsFor A perm) (hA : A.Triangle) (hsize : perm.size = A.cols)
    {B : Sparse β} (hB : B.Triangle) (hpattern : A.pattern = B.pattern) {plan' : FactorPlan β}
    (h' : plan'.IsFor B perm) :
    plan.matrix.pattern = plan'.matrix.pattern ∧ plan.tree = plan'.tree := by
  obtain ⟨hcols, -, -⟩ := Sparse.pattern_eq_iff.1 hpattern
  obtain ⟨label, place, hlabel, hof⟩ := h.exists_relabelOf hA hsize
  obtain ⟨label', place', hlabel', hof'⟩ := h'.exists_relabelOf hB (hsize.trans hcols)
  obtain rfl := Option.some.inj (hlabel.symm.trans hlabel')
  have hmatrix := hof.pattern_eq hpattern hof'
  have htree := h.tree_eq
  rw [Sparse.ofUpper_of_pattern hmatrix, h'.tree_eq] at htree
  exact ⟨hmatrix, (Except.ok.inj htree).symm⟩

end IsFor

end FactorPlan

/-! ## 3. Factorizations of one pattern -/

namespace Factorization

variable [Scalar α] [Scalar β]

/-- A factorization of the matrix in the order `perm` that has just succeeded: the first one, or
    one made after any calls. -/
inductive Factored (A : Sparse α) (perm : Array Nat) : Factorization α → Prop
  | new {ordering : FillOrdering} {opts : FactorOptions α} {F : Factorization α}
      (hperm : F.perm = perm) (h : (Factorization.new ordering A opts).run = .ok (.ok F)) :
      Factored A perm F
  | again {F G H : Factorization α} {calls : List (Call α)} (hF : Factored A perm F)
      (hcalls : calls.foldlM after F = .ok G) (hrefactor : G.refactor = .ok (H, .ok ())) :
      Factored A perm H

namespace Of

variable {A : Sparse α} {opts : FactorOptions α} {F G : Factorization α}

/-- A call changes at most values. -/
theorem exists_value_of_after (h : Of A opts F) {call : Call α} (hrun : F.after call = .ok G) :
    ∃ value, G.perm = F.perm ∧ Of { A with value } opts G := by
  have hsize := h.planOf.size_perm
  by_cases hcall : ∀ b, call = .solve b → b.size = A.cols
  · obtain ⟨G', hG', hperm, hof⟩ := exists_after ((trimmed_of_size hsize).symm ▸ h) call hcall
    obtain rfl := Except.ok.inj (hG'.symm.trans hrun)
    rw [trimmed_of_size (hperm ▸ hsize)] at hof
    exact ⟨_, hperm, hof⟩
  · push Not at hcall
    obtain ⟨b, rfl, -⟩ := hcall
    obtain ⟨x, -, hsame⟩ := Checked.bind_eq_ok.1 hrun
    obtain rfl := Except.ok.inj hsame
    exact ⟨A.value, rfl, h⟩

/-- Calls change at most values. -/
theorem exists_value_of_calls (h : Of A opts F) {calls : List (Call α)}
    (hrun : calls.foldlM after F = .ok G) :
    ∃ value, G.perm = F.perm ∧ Of { A with value } opts G := by
  induction calls generalizing A F with
  | nil =>
    cases hrun
    exact ⟨A.value, rfl, h⟩
  | cons call calls ih =>
    obtain ⟨F', hF', hrun⟩ := Checked.bind_eq_ok.1 (List.foldlM_cons.symm.trans hrun)
    obtain ⟨_, hperm, hof⟩ := h.exists_value_of_after hF'
    obtain ⟨value, hperm', hof'⟩ := ih hof hrun
    exact ⟨value, hperm'.trans hperm, hof'⟩

end Of

/-- The plan of a factorization is one for its matrix. -/
theorem PlanOf.isFor {A : Sparse α} {perm : Array Nat} {opts : FactorOptions α}
    {plan : FactorPlan α} {place : Array Nat} (h : PlanOf A perm opts plan place) :
    plan.IsFor A perm := by
  obtain ⟨label, hlabel, hrelabelOf⟩ := h.relabelOf
  have hlabels := Sparse.labels_of_isInverse h.triangle.square h.size_perm
    (Permutation.isInverse_of_inverse? hlabel)
  obtain ⟨R, hR, hof⟩ := h.triangle.toShaped.exists_relabel hlabels
  exact
    { relabel_eq := ⟨label, place, hlabel, by rw [hR, hof.unique hrelabelOf]⟩
      tree_eq := h.tree_eq
      size_signs := h.size_signs }

/-- **A factorization that has just succeeded holds the factors of a plan for its matrix**, with
    the values that the matrix has by then. -/
theorem Factored.exists_plan {A : Sparse α} (hA : A.Triangle) {perm : Array Nat}
    (hsize : perm.size = A.cols) {F : Factorization α} (h : Factored A perm F) :
    ∃ value opts, F.perm = perm ∧ Of { A with value } opts F ∧ F.plan.FactorsOf F.factors := by
  induction h with
  | new hperm h =>
    obtain ⟨hof, houtcome, hholds⟩ := trimmed_of_new hA.toShaped h
    rw [trimmed_of_size (hperm ▸ hsize)] at hof
    exact ⟨A.value, _, hperm, hof, hholds (firstBad_of_outcome houtcome)⟩
  | again _ hcalls hrefactor ih =>
    obtain ⟨_, opts, hperm, hof, -⟩ := ih
    obtain ⟨value, hperm', hof'⟩ := hof.exists_value_of_calls hcalls
    obtain ⟨factors, hrun, hof'', hholds⟩ := hof'.exists_refactor
    obtain ⟨rfl, houtcome⟩ := Prod.mk.inj (Except.ok.inj (hrun.symm.trans hrefactor))
    exact ⟨value, opts, hperm'.trans hperm, hof'', hholds (firstBad_of_outcome houtcome)⟩

/-- Factorizations of matrices with one pattern in one order have factors with one pattern. -/
theorem Factored.pattern_eq {A : Sparse α} {B : Sparse β} (hA : A.Triangle) (hB : B.Triangle)
    (hpattern : A.pattern = B.pattern) {perm : Array Nat} (hsize : perm.size = A.cols)
    {F : Factorization α} {G : Factorization β} (hF : Factored A perm F)
    (hG : Factored B perm G) : F.factors.lower.pattern = G.factors.lower.pattern := by
  obtain ⟨hcols, -, -⟩ := Sparse.pattern_eq_iff.1 hpattern
  obtain ⟨value, _, rfl, hof, hfactors⟩ := hF.exists_plan hA hsize
  obtain ⟨value', _, hperm, hof', hfactors'⟩ := hG.exists_plan hB (hsize.trans hcols)
  obtain ⟨hmatrix, htree⟩ := hof.planOf.isFor.same hof.planOf.triangle hsize
    hof'.planOf.triangle (show ({ A with value } : Sparse α).pattern = _ from hpattern)
    (hperm ▸ hof'.planOf.isFor)
  exact hfactors.pattern_eq hof.planOf.proper hof'.planOf.proper hmatrix htree hfactors'

/-- The number of entries in the factors is that of their pattern, with the diagonal. -/
theorem Factored.storedCount_eq {A : Sparse α} (hA : A.Triangle) {perm : Array Nat}
    (hsize : perm.size = A.cols) {F : Factorization α} (h : Factored A perm F) :
    F.storedCount = .ok (F.factors.lower.rowIndex.size + A.cols) := by
  obtain ⟨value, opts, -, hof, -⟩ := h.exists_plan hA hsize
  unfold storedCount
  rw [hof.fits.shaped.storedCount_eq, Checked.ok_bind, hof.fits.size_pivot, hof.planOf.cols_eq]
  rfl

end Factorization

end Quasidefinite

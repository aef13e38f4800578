import Quasidefinite.Proofs.Sparse.Product
import Quasidefinite.Proofs.Workspace.Record

/-!
# New values always find their places

A direct system keeps the places of the dual regularizer in its assembled matrix, and the place of
every entry of that matrix in the relabelled one. Both were found at construction. A factorization
refuses to change the values at places it does not know; the places that a direct system hands to
it are always known (`Linked`), even if the matrices the system was built from were malformed and
construction did not look at them. An update can therefore be refused for its arguments, or fail
because its matrix cannot be factored, and in no other way (`Linked.update`).
-/

namespace Quasidefinite

variable {α : Type} [Scalar α]

/-! ## 1. Places of the dual regularizer -/

namespace Kkt

omit [Scalar α] in
/-- An entry is put at the next free place of its column. -/
theorem Filling.put_eq_ok {f g : Filling α} {row col place : Nat} {v : α}
    (h : f.put row col v = .ok (g, place)) :
    place = f.next.getD col 0 ∧ ∃ hcol : col < f.next.size,
      g.next = f.next.set col (place + 1) hcol := by
  obtain ⟨place', hplace, h⟩ := Checked.bind_eq_ok.1 h
  obtain ⟨rowIndex, -, h⟩ := Checked.bind_eq_ok.1 h
  obtain ⟨value, -, h⟩ := Checked.bind_eq_ok.1 h
  obtain ⟨next, hnext, h⟩ := Checked.bind_eq_ok.1 h
  obtain ⟨hcol, hat⟩ := Checked.entry_eq_ok 0 hplace
  rw [Checked.store_of_lt _ _ _ hcol] at hnext
  cases h
  cases hnext
  exact ⟨hat.symm, hcol, rfl⟩

/-- The first `k` places of the dual regularizer are the last ones filled in their columns. -/
structure Filling.Closes (n m k : Nat) (s : Filling α × Array Nat) : Prop where
  size_eq : s.2.size = m
  succ_eq : ∀ i < k, s.2.getD i 0 + 1 = s.1.next.getD (n + i) 0

theorem Filling.Closes.fillDual {n m k : Nat} {s t : Filling α × Array Nat}
    (hs : Closes n m k s) (h : fillDual n s k = .ok t) : Closes n m (k + 1) t := by
  obtain ⟨⟨f, place⟩, hput, h⟩ := Checked.bind_eq_ok.1 h
  obtain ⟨places, hstore, h⟩ := Checked.bind_eq_ok.1 h
  cases h
  obtain ⟨-, hcol, hnext⟩ := put_eq_ok hput
  refine ⟨(Checked.size_of_store hstore).trans hs.size_eq, fun i hi => ?_⟩
  dsimp only
  have hk : k < s.2.size := by
    unfold Checked.store at hstore
    split at hstore
    · assumption
    · cases hstore
  rw [Checked.store_of_lt _ _ _ hk] at hstore
  cases hstore
  rw [hnext, getD_set, getD_set]
  by_cases hik : i = k
  · rw [if_pos hik, if_pos (by omega)]
  · rw [if_neg hik, if_neg (by omega)]
    exact hs.succ_eq i (by omega)

/-- Every place of the dual regularizer is the last one of its column. -/
structure Closed (A : Sparse α) (K : Kkt α) : Prop where
  cols_eq : K.matrix.cols = A.rows + A.cols
  size_dual : K.places.dual.size = A.rows
  dual_eq : ∀ i < A.rows, K.places.dual.getD i 0 + 1 = K.matrix.start (A.cols + i + 1)

/-- **Whatever is assembled has the places of the dual regularizer at the ends of its columns.** -/
theorem closed_of_assemble {P A : Sparse α} {K : Kkt α} (h : assemble P A = .ok K) :
    K.Closed A := by
  obtain ⟨room, -, h⟩ := Checked.bind_eq_ok.1 h
  obtain ⟨room', -, h⟩ := Checked.bind_eq_ok.1 h
  obtain ⟨count, -, h⟩ := Checked.bind_eq_ok.1 h
  obtain ⟨counts, -, h⟩ := Checked.bind_eq_ok.1 h
  obtain ⟨⟨f₁, quadratic⟩, -, h⟩ := Checked.bind_eq_ok.1 h
  obtain ⟨f₂, -, h⟩ := Checked.bind_eq_ok.1 h
  obtain ⟨⟨f₃, constraint⟩, -, h⟩ := Checked.bind_eq_ok.1 h
  obtain ⟨⟨f, dual⟩, hdual, h⟩ := Checked.bind_eq_ok.1 h
  obtain ⟨diagonal, -, h⟩ := Checked.bind_eq_ok.1 h
  cases h
  have hcloses := Checked.foldRange_induct (Filling.Closes A.cols A.rows) (Nat.zero_le _) hdual
    ⟨Array.size_replicate, fun i hi => absurd hi (Nat.not_lt_zero i)⟩
    fun i s t _ _ hs h => hs.fillDual h
  refine ⟨rfl, hcloses.size_eq, fun i hi => ?_⟩
  dsimp only [Sparse.start]
  rw [hcloses.succ_eq i hi, getD_singleton_append, getD_extract _ _ (by omega)]

theorem Closed.addPrimal {A : Sparse α} {K L : Kkt α} (hK : K.Closed A) {primal : α}
    (h : K.addPrimal primal = .ok L) : L.Closed A := by
  obtain ⟨value, -, h⟩ := Checked.bind_eq_ok.1 h
  cases h
  exact ⟨hK.cols_eq, hK.size_dual, hK.dual_eq⟩

omit [Scalar α] in
theorem Closed.setDual {A : Sparse α} {K L : Kkt α} (hK : K.Closed A) {values : Array α}
    (h : K.setDual values = .ok L) : L.Closed A := by
  obtain ⟨value, -, h⟩ := Checked.bind_eq_ok.1 h
  cases h
  exact ⟨hK.cols_eq, hK.size_dual, hK.dual_eq⟩

end Kkt

/-! ## 2. Places in the relabelled matrix -/

namespace Sparse

variable {A : Sparse α} {label : Array Nat}

omit [Scalar α] in
theorem start_le_of_columnRows {j : Nat} {rows : Array Nat} (h : A.columnRows j = .ok rows) :
    A.start j ≤ A.start (j + 1) := by
  obtain ⟨first, hfirst, h⟩ := Checked.bind_eq_ok.1 h
  obtain ⟨last, hlast, h⟩ := Checked.bind_eq_ok.1 h
  rw [start, start, (Checked.entry_eq_ok 0 hfirst).2, (Checked.entry_eq_ok 0 hlast).2]
  exact (Checked.slice_eq_ok.1 h).1.1

omit [Scalar α] in
theorem start_le_of_steps {n j : Nat} (h : ∀ i < n, A.start i ≤ A.start (i + 1)) (hj : j ≤ n) :
    A.start j ≤ A.start n := by
  induction n, hj using Nat.le_induction with
  | base => exact Nat.le_refl _
  | succ n hj ih => exact (ih fun i hi => h i (by omega)).trans (h n (by omega))

omit [Scalar α] in
theorem size_of_moveRelabelled {col p row : Nat} {f g : Filling α}
    (h : A.moveRelabelled label col f p row = .ok g) : g.place.size = f.place.size := by
  unfold moveRelabelled at h
  obtain ⟨⟨i, j⟩, -, h⟩ := Checked.bind_eq_ok.1 h
  obtain ⟨place, -, h⟩ := Checked.bind_eq_ok.1 h
  obtain ⟨v, -, h⟩ := Checked.bind_eq_ok.1 h
  obtain ⟨rowIndex, -, h⟩ := Checked.bind_eq_ok.1 h
  obtain ⟨value, -, h⟩ := Checked.bind_eq_ok.1 h
  obtain ⟨places, hplaces, h⟩ := Checked.bind_eq_ok.1 h
  obtain ⟨next, -, h⟩ := Checked.bind_eq_ok.1 h
  cases h
  exact Checked.size_of_store hplaces

/-- **Whatever is relabelled has columns one after the other**, and a place is kept for every
    entry. -/
theorem relabel_eq_ok {R : Relabelled α} (h : A.relabel label = .ok R) :
    (∀ j < A.cols, A.start j ≤ A.start (j + 1)) ∧ R.place.size = A.start A.cols := by
  obtain ⟨stored, hroom, h⟩ := Checked.bind_eq_ok.1 h
  obtain ⟨counts, hcounts, h⟩ := Checked.bind_eq_ok.1 h
  obtain ⟨filling, hfilling, h⟩ := Checked.bind_eq_ok.1 h
  cases h
  obtain ⟨count, hcount, hroom⟩ := Checked.bind_eq_ok.1 hroom
  obtain ⟨⟨⟩, -, hroom⟩ := Checked.bind_eq_ok.1 hroom
  cases hroom
  constructor
  · refine Checked.foldRange_induct (fun k _ => ∀ j < k, A.start j ≤ A.start (j + 1))
      (Nat.zero_le _) hcounts (fun j hj => absurd hj (Nat.not_lt_zero j))
      fun k s t _ _ hs h j hj => ?_
    rcases Nat.lt_succ_iff_lt_or_eq.1 hj with hj | rfl
    · exact hs j hj
    · obtain ⟨rows, hrows, -⟩ := Checked.bind_eq_ok.1 h
      exact start_le_of_columnRows hrows
  · have hsize : filling.place.size = stored := by
      refine Checked.foldRange_keeps (fun f : Filling α => f.place.size = stored) hfilling
        Array.size_replicate fun f j g hf h => ?_
      exact foldColumn_keeps (fun f : Filling α => f.place.size = stored) h hf
        fun f p row g hf h => (size_of_moveRelabelled h).trans hf
    rw [hsize]
    exact (Checked.entry_eq_ok 0 hcount).2.symm

end Sparse

/-- Whatever a factorization was built from has its columns one after the other, and the
    factorization knows a place for every entry. -/
theorem Factorization.relabelled_of_new {ordering : FillOrdering} {K : Sparse α}
    {opts : FactorOptions α} {F : Factorization α}
    (h : (Factorization.new ordering K opts).run = .ok (.ok F)) :
    (∀ j < K.cols, K.start j ≤ K.start (j + 1)) ∧ F.place.size = K.start K.cols := by
  unfold Factorization.new at h
  obtain ⟨⟨⟩, -, h⟩ := Attempt.run_bind_eq_ok.1 h
  obtain ⟨perm, -, h⟩ := Attempt.run_bind_eq_ok.1 h
  cases hlabel : Permutation.inverse? perm with
  | none =>
    rw [hlabel] at h
    cases h
  | some label =>
    rw [hlabel] at h
    obtain ⟨R, hR, h⟩ := Attempt.run_bind_eq_ok.1 h
    obtain ⟨signs, -, h⟩ := Attempt.run_bind_eq_ok.1 h
    obtain ⟨tree, -, h⟩ := Attempt.run_bind_eq_ok.1 h
    obtain ⟨⟨factors, failed⟩, -, h⟩ := Attempt.run_bind_eq_ok.1 h
    cases failed with
    | some column => cases h
    | none =>
      obtain rfl := Attempt.run_pure_eq_ok.1 h
      exact Sparse.relabel_eq_ok (Attempt.run_lift_eq_ok.1 hR)

omit [Scalar α] in
/-- Changing the values of entries whose places are known leaves all but the values as it is. -/
theorem Factorization.updateValues_eq_ok {F : Factorization α} {indices : Array Nat}
    {values : Array α} (hsize : indices.size = values.size)
    (hlt : ∀ i ∈ indices, i < F.place.size) {r : Except FactorError (Factorization α)}
    (h : (F.updateValues indices values).run = .ok r) :
    ∃ value, r = .ok { F with plan := { F.plan with matrix := { F.plan.matrix with value } } } := by
  have hall : indices.all (· < F.place.size) = true :=
    Array.all_eq_true_iff_forall_mem.2 fun i hi => decide_eq_true (hlt i hi)
  unfold updateValues at h
  rw [Attempt.run_bind_of_ok _ (Attempt.run_ensure_of hsize),
    Attempt.run_bind_of_ok _ (Attempt.run_ensure_of hall)] at h
  cases hwrite : F.writeValues indices values with
  | error fault =>
    rw [hwrite] at h
    cases h
  | ok value =>
    rw [hwrite] at h
    cases h
    exact ⟨value, rfl⟩

/-! ## 3. Room for values -/

namespace Refinement

variable {K : Sparse α} {F : Factorization α} {settings : Settings α} {b : Array α} {normb : α}

theorem size_of_residual {e x r : Array α} {norm : α}
    (h : residual K b e x = .ok (r, norm)) : r.size = e.size := by
  obtain ⟨hsize, hr, -⟩ := residual_eq_ok.1 h
  exact (Sparse.size_symv hr).trans hsize.symm

theorem Tried.size_eq {s : State α} {x e : Array α} (h : Tried K F b s x e) :
    e.size = s.residual.size := (Sparse.size_symv h.residual_eq).trans h.size_residual.symm

theorem Step.size_residual {s : State α} {p : Progress α} (h : Step settings K F b normb s p) :
    p.state.residual.size = s.residual.size := by
  cases h with
  | finished h => rfl
  | dropped x e hgoing htried hshort hworse => exact htried.size_eq
  | kept x e hgoing htried hshort hbetter => exact htried.size_eq
  | accepted x e hgoing htried henough => exact htried.size_eq

theorem size_of_run {count : Nat} {s t : State α}
    (h : run settings K F b normb count s = .ok t) : t.residual.size = s.residual.size :=
  run_keeps (fun u => u.residual.size = s.residual.size)
    (fun _ _ hu hstep => hstep.size_residual.trans hu) rfl h

end Refinement

theorem DirectSystem.size_of_solveRefined {s : DirectSystem α} {b : Array α}
    {r : Refinement.State α} (h : s.solveRefined b = .ok r) :
    r.residual.size = s.scratch.size := by
  obtain ⟨x, -, h⟩ := Checked.bind_eq_ok.1 h
  split at h
  · obtain ⟨⟨e, norm⟩, he, h⟩ := Checked.bind_eq_ok.1 h
    exact (Refinement.size_of_run h).trans (Refinement.size_of_residual he)
  · obtain ⟨⟨e, norm⟩, he, h⟩ := Checked.bind_eq_ok.1 h
    cases h
    exact Refinement.size_of_residual he

/-! ## 4. Direct systems -/

namespace DirectSystem

/-- The places of the dual regularizer are known to the factorization, and the scratch space has
    room for its values. -/
structure Linked (s : DirectSystem α) : Prop where
  size_dual : s.kkt.places.dual.size = s.fingerprint.rows
  lt_size : ∀ p ∈ s.kkt.places.dual, p < s.factorization.place.size
  le_size : s.fingerprint.rows ≤ s.scratch.size

/-- **Construction links the places.** -/
theorem linked_of_new {ordering : FillOrdering} {A P : Sparse α} {reg : Regularization α}
    {settings : Settings α} {s : DirectSystem α}
    (h : (new ordering A P reg settings).run = .ok (.ok s)) : s.Linked ∧ s.usable = true := by
  unfold new at h
  obtain ⟨upper, -, h⟩ := Attempt.run_bind_eq_ok.1 h
  obtain ⟨engine, -, h⟩ := Attempt.run_bind_eq_ok.1 h
  obtain ⟨K, hK, h⟩ := Attempt.run_bind_eq_ok.1 h
  obtain ⟨F, hF, h⟩ := Attempt.run_bind_eq_ok.1 h
  obtain ⟨⟨⟩, -, h⟩ := Attempt.run_bind_eq_ok.1 h
  obtain ⟨count, -, h⟩ := Attempt.run_bind_eq_ok.1 h
  obtain ⟨f, hf, h⟩ := Attempt.run_bind_eq_ok.1 h
  obtain rfl := Attempt.run_pure_eq_ok.1 h
  have hrows := (IndirectSystem.dims_of_fingerprint (Attempt.run_lift_eq_ok.1 hf)).1
  obtain ⟨K₀, hK₀, hK⟩ := Checked.bind_eq_ok.1 (Attempt.run_lift_eq_ok.1 hK)
  obtain ⟨K₁, hK₁, hK⟩ := Checked.bind_eq_ok.1 hK
  have hclosed := ((Kkt.closed_of_assemble hK₀).addPrimal hK₁).setDual hK
  cases engine
  obtain ⟨hstart, hsize⟩ := Factorization.relabelled_of_new (Attempt.run_mapError_eq_ok.1 hF)
  have hlt : ∀ p ∈ K.places.dual, p < F.place.size := by
    intro p hp
    obtain ⟨i, hi, rfl⟩ := Array.mem_iff_getElem.1 hp
    have hiA : i < A.rows := hi.trans_eq hclosed.size_dual
    have hend := Sparse.start_le_of_steps hstart (j := A.cols + i + 1)
      (by rw [hclosed.cols_eq]; omega)
    have hlast := hclosed.dual_eq i hiA
    rw [getD_of_lt _ _ _ hi] at hlast
    omega
  refine ⟨⟨hclosed.size_dual.trans hrows.symm, hlt, ?_⟩, rfl⟩
  rw [Vec.size_zeros, hrows]
  omega

namespace Linked

variable {s t : DirectSystem α} (h : s.Linked)

include h

/-- A solve leaves the places alone, and keeps room for values. -/
theorem solve {b z : Array α} {status : Status} (hsolve : s.solve b = .ok (t, z, status)) :
    t.Linked ∧ t.usable = s.usable := by
  rcases cases_solve hsolve with ⟨-, rfl, -⟩ | ⟨r, -, hb, hr, rfl, -⟩
  · exact ⟨h, rfl⟩
  · exact ⟨⟨h.size_dual, h.lt_size, h.le_size.trans_eq (size_of_solveRefined hr).symm⟩, rfl⟩

/-- **Writing a dual regularizer is never refused**, and leaves the places linked. -/
theorem writeDual {dual : Array α} {result : Except SystemError Unit}
    (hwrite : s.writeDual dual = .ok (t, result)) :
    result = .ok () ∧ t.Linked := by
  have hsize := h.size_dual
  have hroom := h.le_size
  have hvalues : (Vec.mapOver (- ·) (s.scratch.extract 0 s.fingerprint.rows) dual).size =
      s.fingerprint.rows := by
    simp
    omega
  unfold DirectSystem.writeDual at hwrite
  obtain ⟨updated, hupdate, hwrite⟩ := Checked.bind_eq_ok.1 hwrite
  obtain ⟨value, rfl⟩ := Factorization.updateValues_eq_ok (hsize.trans hvalues.symm) h.lt_size
    hupdate
  obtain ⟨kkt, hkkt, hwrite⟩ := Checked.bind_eq_ok.1 hwrite
  obtain ⟨written, -, hkkt⟩ := Checked.bind_eq_ok.1 hkkt
  cases hkkt
  cases hwrite
  refine ⟨rfl, h.size_dual, h.lt_size, ?_⟩
  rw [Array.size_append, hvalues]
  exact Nat.le_add_right _ _

theorem refactor {result : Except SystemError Unit} (hrefactor : s.refactor = .ok (t, result)) :
    t.Linked := by
  obtain ⟨⟨F, swept⟩, hF, hrefactor⟩ := Checked.bind_eq_ok.1 hrefactor
  obtain ⟨⟨factors, failed⟩, -, hF⟩ := Checked.bind_eq_ok.1 hF
  cases hF
  cases hrefactor
  exact ⟨h.size_dual, h.lt_size, h.le_size⟩

/-- **What an update comes to**: it is refused and nothing changes; or the matrix is factored
    again, and the mark tells whether that succeeded. -/
theorem update {A P : Sparse α} {dual : Array α} {result : Except SystemError Unit}
    (hupdate : s.update A P dual = .ok (t, result)) :
    (t = s ∧ passed result = false) ∨
      (passed result = true ∧ t.usable = result.isOk ∧ t.Linked) := by
  rcases cases_update hupdate with ⟨rfl, rfl⟩ | ⟨e, hwrite, rfl⟩ | ⟨v, hwrite, hrefactor⟩
  · exact .inl ⟨rfl, rfl⟩
  · cases (h.writeDual hwrite).1
  · obtain ⟨-, hv⟩ := h.writeDual hwrite
    obtain ⟨husable, hpassed⟩ := usable_of_refactor hrefactor
    exact .inr ⟨hpassed, husable, hv.refactor hrefactor⟩

end Linked

end DirectSystem

end Quasidefinite

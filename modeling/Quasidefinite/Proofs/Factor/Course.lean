import Quasidefinite.Proofs.Factor.Sweep

/-!
# The course of a factorization

A factorization goes through the columns of the matrix, and in each of them through the columns of
the factor that have an entry in the row it solves for. `Sweep.Step` takes one of these steps with
the program's own parts, and `Sweep.Reached` are the states that a factorization over given factors
goes through; it ends in such a state (`Sweep.ends_of_factor`).

In every arithmetic each state that is reached shows the view of its stage (`Sweep.Kept`, kept by
every step, `Kept.of_step`). So the next step answers; the columns still to be eliminated are no
more than their stack has room for, because a reach holds no column twice; a column of the factor
never receives an entry past its room, because the tree counts a row in whose reach the column lies
before the column is visited; and the buffers are clean again once a row is done
(`Sweep.Reached.safe`).
When the last column is done every column of the factor is full (`Sweep.Reached.full`). As far as
the pivots are usable, the factorization gets to every row (`Sweep.exists_reached_solving`).

No step moves the columns of the factor, whatever the matrix (`Sweep.Step.frame_eq`); so factoring
again keeps their frame, wherever it ends (`FactorPlan.frame_of_factor`).
-/

namespace Quasidefinite

variable {α : Type} [Scalar α]

namespace Sweep

/-! ## 1. Stages -/

/-- Where a sweep stands. -/
inductive Stage
  /-- The columns before `k` are done. -/
  | column (k : Nat)
  /-- Row `k` is being solved for; the columns `pending` are still to be eliminated. -/
  | solving (k : Nat) (pending : List Nat)

/-- One step of a sweep. -/
inductive Step (plan : FactorPlan α) : Stage × Sweep α → Stage × Sweep α → Prop
  /-- Column `k` of the matrix is scattered. -/
  | scatter {k : Nat} {s t : Sweep α} {pending : List Nat} (hk : k < plan.matrix.cols)
      (h : plan.matrix.foldColumn k (scatterEntry plan k) (s, []) = .ok (t, pending)) :
      Step plan (.column k, s) (.solving k pending, t)
  /-- The next column is eliminated. -/
  | eliminate {k c : Nat} {pending : List Nat} {s t : Sweep α} (h : Sweep.eliminate k s c = .ok t) :
      Step plan (.solving k (c :: pending), s) (.solving k pending, t)
  /-- The pivot is regularized and accepted. -/
  | accept {k : Nat} {s t u : Sweep α} (hregularize : s.regularize plan k = .ok t)
      (haccept : t.accept? k = .ok (some u)) :
      Step plan (.solving k [], s) (.column (k + 1), u)

/-- The states that the factorization over the factors `old` goes through. -/
def Reached (plan : FactorPlan α) (old : Factors α) (σ : Stage × Sweep α) : Prop :=
  Relation.ReflTransGen (Step plan) (.column 0, plan.start old) σ

variable {plan : FactorPlan α} {old : Factors α}

/-- Eliminations that answer go through reached states. -/
theorem Reached.foldlM_eliminate {k : Nat} {pending : List Nat} {s t : Sweep α}
    (h : Reached plan old (.solving k pending, s))
    (hrun : pending.foldlM (Sweep.eliminate k) s = .ok t) :
    Reached plan old (.solving k [], t) := by
  induction pending generalizing s with
  | nil =>
    cases hrun
    exact h
  | cons c pending ih =>
    obtain ⟨u, hu, hrun⟩ := Checked.bind_eq_ok.1 (List.foldlM_cons.symm.trans hrun)
    exact ih (h.tail (.eliminate hu)) hrun

/-- Where the factorization over `old` ends with the factors `F`: after the last column, or at a
    pivot that is not accepted. -/
def Ends (plan : FactorPlan α) (old F : Factors α) : (failed : Option Nat) → Prop
  | none => ∃ s, Reached plan old (.column plan.matrix.cols, s) ∧ s.toFactors = F
  | some k => ∃ s t, Reached plan old (.solving k [], s) ∧ s.regularize plan k = .ok t ∧
    t.accept? k = .ok none ∧ t.toFactors = F

theorem ends_of_run {count k : Nat} {s t : Sweep α} {failed : Option Nat}
    (hcount : k + count = plan.matrix.cols) (h : Reached plan old (.column k, s))
    (hrun : run plan count k s = .ok (t, failed)) : Ends plan old t.toFactors failed := by
  induction count generalizing k s with
  | zero =>
    cases hrun
    rw [Nat.add_zero] at hcount
    exact ⟨_, hcount ▸ h, rfl⟩
  | succ count ih =>
    rw [run] at hrun
    obtain ⟨s₃, hcolumn, hrun⟩ := Checked.bind_eq_ok.1 hrun
    obtain ⟨⟨s₁, pending⟩, hscatter, hcolumn⟩ := Checked.bind_eq_ok.1 hcolumn
    obtain ⟨s₂, heliminate, hregularize⟩ := Checked.bind_eq_ok.1 hcolumn
    obtain ⟨accepted, haccept, hrun⟩ := Checked.bind_eq_ok.1 hrun
    have hsolved : Reached plan old (.solving k [], s₂) :=
      Reached.foldlM_eliminate (h.tail (.scatter (by omega) hscatter)) heliminate
    cases accepted with
    | none =>
      cases hrun
      exact ⟨s₂, _, hsolved, hregularize, haccept, rfl⟩
    | some u => exact ih (by omega) (hsolved.tail (.accept hregularize haccept)) hrun

/-- **A factorization ends in a state that it reached.** -/
theorem ends_of_factor {F : Factors α} {failed : Option Nat}
    (h : plan.factor old = .ok (F, failed)) : Ends plan old F failed := by
  obtain ⟨-, t, hrun, rfl⟩ := FactorPlan.factor_eq_ok.1 h
  exact ends_of_run (Nat.zero_add _) .refl hrun

/-! ## 2. What every step keeps -/

/-- A state shows the view of its stage. -/
def Kept (plan : FactorPlan α) : Stage × Sweep α → Prop
  | (.column k, s) => k ≤ plan.matrix.cols ∧ Shows plan k [] (View.after plan k) s
  | (.solving k pending, s) => k < plan.matrix.cols ∧ ∃ done, plan.reach k = done ++ pending ∧
    Shows plan k pending (done.foldl (View.eliminate k) ((View.after plan k).scattered plan k)) s

theorem Kept.of_step (hplan : plan.Proper) {σ τ : Stage × Sweep α} (h : Kept plan σ)
    (hstep : Step plan σ τ) : Kept plan τ := by
  cases hstep with
  | scatter hk hrun =>
    obtain ⟨t', hrun', hshows⟩ := h.2.exists_scattered hplan hk
    cases hrun.symm.trans hrun'
    exact ⟨hk, [], rfl, hshows⟩
  | @eliminate k c pending s t hrun =>
    obtain ⟨hk, done, hsplit, hshows⟩ := h
    obtain ⟨t', hrun', hshows'⟩ := hshows.exists_eliminate_next hplan hk hsplit
    cases hrun.symm.trans hrun'
    exact ⟨hk, done ++ [c], by rw [hsplit, List.append_assoc, List.singleton_append], hshows'⟩
  | @accept k s t u hregularize haccept =>
    obtain ⟨hk, done, hsplit, hshows⟩ := h
    rw [List.append_nil] at hsplit
    subst hsplit
    obtain ⟨t', hrun, hshows'⟩ := hshows.exists_regularize hplan hk
    cases hregularize.symm.trans hrun
    have hshows' : Shows plan k [] (View.after plan (k + 1)) t := hshows'
    have hanswer := hshows'.accept?_eq hk
    cases husable : plan.usable k with
    | true =>
      rw [if_pos husable] at hanswer
      obtain ⟨u', hu', hdone⟩ := hanswer
      cases haccept.symm.trans hu'
      exact ⟨hk, hdone⟩
    | false =>
      rw [husable, if_neg Bool.false_ne_true] at hanswer
      cases haccept.symm.trans hanswer

theorem Reached.kept (hplan : plan.Proper) (hold : plan.Fits old) {σ : Stage × Sweep α}
    (h : Reached plan old σ) : Kept plan σ := by
  induction h with
  | refl => exact ⟨Nat.zero_le _, FactorPlan.shows_start hold⟩
  | tail _ hstep ih => exact ih.of_step hplan hstep

/-! ## 3. Safety -/

/-- **After the last column every column of the factor has received as many entries as the tree
    counts.** -/
theorem Reached.full (hplan : plan.Proper) (hold : plan.Fits old) {s : Sweep α}
    (h : Reached plan old (.column plan.matrix.cols, s)) {c : Nat} (hc : c < plan.matrix.cols) :
    s.next.getD c 0 = s.lower.start c + plan.tree.count.getD c 0 := by
  obtain ⟨-, hshows⟩ := h.kept hplan hold
  rw [hshows.next_eq c hc, hplan.tree.count_eq c hc,
    (View.sound_after hplan (Nat.le_refl _)).length_column c]
  rfl

/-! ## 4. Pivots -/

/-- The pivot of a row whose columns are all eliminated is still to be regularized. -/
theorem Reached.pivot_eq (hplan : plan.Proper) (hold : plan.Fits old) {k : Nat} {s : Sweep α}
    (h : Reached plan old (.solving k [], s)) : s.pivot.getD k 0 = plan.rawAt k := by
  obtain ⟨-, done, hsplit, hshows⟩ := h.kept hplan hold
  rw [List.append_nil] at hsplit
  subst hsplit
  exact congrFun hshows.pivot_eq k

/-- All columns in the reach of a row can be eliminated. -/
theorem Reached.exists_solving (hplan : plan.Proper) (hold : plan.Fits old) {k : Nat}
    (hk : k < plan.matrix.cols) {s : Sweep α} (h : Reached plan old (.column k, s)) :
    ∃ t, Reached plan old (.solving k [], t) := by
  obtain ⟨-, hshows⟩ := h.kept hplan hold
  obtain ⟨t, hscatter, hshows⟩ := hshows.exists_scattered hplan hk
  obtain ⟨u, heliminate, -⟩ := hshows.exists_foldlM_eliminate hplan hk
  exact ⟨u, Reached.foldlM_eliminate (h.tail (.scatter hk hscatter)) heliminate⟩

/-- A usable pivot is accepted. -/
theorem Reached.exists_succ (hplan : plan.Proper) (hold : plan.Fits old) {k : Nat}
    (husable : plan.usable k = true) {s : Sweep α} (h : Reached plan old (.solving k [], s)) :
    ∃ t, Reached plan old (.column (k + 1), t) := by
  obtain ⟨hk, done, hsplit, hshows⟩ := h.kept hplan hold
  rw [List.append_nil] at hsplit
  subst hsplit
  obtain ⟨t, hregularize, hshows⟩ := hshows.exists_regularize hplan hk
  have hshows : Shows plan k [] (View.after plan (k + 1)) t := hshows
  have hanswer := hshows.accept?_eq hk
  rw [if_pos husable] at hanswer
  obtain ⟨u, haccept, -⟩ := hanswer
  exact ⟨u, h.tail (.accept hregularize haccept)⟩

/-- **A factorization gets to every row before which all pivots are usable.** -/
theorem exists_reached_solving (hplan : plan.Proper) (hold : plan.Fits old) {k : Nat}
    (hk : k < plan.matrix.cols) (husable : ∀ i < k, plan.usable i = true) :
    ∃ s, Reached plan old (.solving k [], s) := by
  have hcolumn : ∃ s, Reached plan old (.column k, s) := by
    induction k with
    | zero => exact ⟨_, .refl⟩
    | succ k ih =>
      obtain ⟨s, hs⟩ := ih (by omega) fun i hi => husable i (by omega)
      obtain ⟨t, ht⟩ := hs.exists_solving hplan hold (by omega)
      exact ht.exists_succ hplan hold (husable k (Nat.lt_succ_self k))
  obtain ⟨s, hs⟩ := hcolumn
  exact hs.exists_solving hplan hold hk

end Sweep

/-! ## 5. The frame of the factors -/

/-- The frame of factors: where the columns start, how many of them there are, and the number of
    pivots. -/
def Factors.frame (F : Factors α) : Array Nat × Nat × Nat :=
  (F.lower.colStart, F.lower.cols, F.pivot.size)

namespace Sweep

variable {plan : FactorPlan α} {s t : Sweep α} {k : Nat}

omit [Scalar α] in
theorem frame_of_scatterEntry {reach reach' : List Nat} {p i : Nat}
    (h : scatterEntry plan k (s, reach) p i = .ok (t, reach')) :
    t.toFactors.frame = s.toFactors.frame := by
  obtain ⟨v, -, h⟩ := Checked.bind_eq_ok.1 h
  split at h
  · obtain ⟨pivot, hpivot, h⟩ := Checked.bind_eq_ok.1 h
    cases h
    rw [Factors.frame, Factors.frame, Checked.size_of_store hpivot]
  · obtain ⟨row, -, h⟩ := Checked.bind_eq_ok.1 h
    obtain ⟨⟨path, marked⟩, -, h⟩ := Checked.bind_eq_ok.1 h
    obtain ⟨reach, -, h⟩ := Checked.bind_eq_ok.1 h
    cases h
    rfl

theorem frame_of_eliminate {c : Nat} (h : eliminate k s c = .ok t) :
    t.toFactors.frame = s.toFactors.frame := by
  unfold eliminate at h
  obtain ⟨y, -, h⟩ := Checked.bind_eq_ok.1 h
  obtain ⟨place, -, h⟩ := Checked.bind_eq_ok.1 h
  obtain ⟨first, -, h⟩ := Checked.bind_eq_ok.1 h
  obtain ⟨row, -, h⟩ := Checked.bind_eq_ok.1 h
  obtain ⟨inv, -, h⟩ := Checked.bind_eq_ok.1 h
  obtain ⟨rowIndex, -, h⟩ := Checked.bind_eq_ok.1 h
  obtain ⟨value, -, h⟩ := Checked.bind_eq_ok.1 h
  obtain ⟨pivot, hpivot, h⟩ := Checked.bind_eq_ok.1 h
  obtain ⟨next, -, h⟩ := Checked.bind_eq_ok.1 h
  obtain ⟨cleared, -, h⟩ := Checked.bind_eq_ok.1 h
  obtain ⟨marked, -, h⟩ := Checked.bind_eq_ok.1 h
  cases h
  rw [Factors.frame, Factors.frame, Checked.size_of_adjust hpivot]

theorem frame_of_regularize (h : s.regularize plan k = .ok t) :
    t.toFactors.frame = s.toFactors.frame := by
  unfold regularize at h
  split at h
  · cases h
    rfl
  · obtain ⟨sign, -, h⟩ := Checked.bind_eq_ok.1 h
    obtain ⟨pivot, hpivot, h⟩ := Checked.bind_eq_ok.1 h
    cases h
    rw [Factors.frame, Factors.frame, Checked.size_of_adjust hpivot]

theorem frame_of_accept? (h : s.accept? k = .ok (some t)) :
    t.toFactors.frame = s.toFactors.frame := by
  obtain ⟨d, -, h⟩ := Checked.bind_eq_ok.1 h
  split at h
  · cases h
  · obtain ⟨pivotInv, -, h⟩ := Checked.bind_eq_ok.1 h
    cases h
    rfl

/-- **No step of a sweep moves the columns of the factor.** -/
theorem Step.frame_eq {σ τ : Stage × Sweep α} (h : Step plan σ τ) :
    τ.2.toFactors.frame = σ.2.toFactors.frame := by
  cases h with
  | @scatter k s t pending hk h =>
    exact Sparse.foldColumn_keeps (fun u => u.1.toFactors.frame = s.toFactors.frame) h rfl
      fun _ _ _ _ hu h => (frame_of_scatterEntry h).trans hu
  | eliminate h => exact frame_of_eliminate h
  | accept hregularize haccept =>
    exact (frame_of_accept? haccept).trans (frame_of_regularize hregularize)

theorem Reached.frame_eq {old : Factors α} {σ : Stage × Sweep α} (h : Reached plan old σ) :
    σ.2.toFactors.frame = old.frame := by
  induction h with
  | refl =>
    show (old.lower.colStart, old.lower.cols, (Vec.fill old.pivot 0).size) = old.frame
    rw [Vec.size_fill]
    rfl
  | tail _ hstep ih => exact hstep.frame_eq.trans ih

end Sweep

/-- **Factoring over given factors keeps their frame**, wherever it ends. -/
theorem FactorPlan.frame_of_factor {plan : FactorPlan α} {old F : Factors α}
    {failed : Option Nat} (h : plan.factor old = .ok (F, failed)) : F.frame = old.frame := by
  have hends := Sweep.ends_of_factor h
  cases failed with
  | none =>
    obtain ⟨s, hs, rfl⟩ := hends
    exact hs.frame_eq
  | some k =>
    obtain ⟨s, t, hs, hregularize, -, rfl⟩ := hends
    exact (Sweep.frame_of_regularize hregularize).trans hs.frame_eq

end Quasidefinite

import Quasidefinite.Checked

/-!
# Rules for checked loops

A checked computation answers or faults. The rules of this module open a sequence of checked
steps (`Checked.ok_bind`) and carry an invariant through the loops of the
library: over a list (`Checked.exists_foldlM`), over descending indices
(`Checked.exists_foldDown`), and, where every step answers by a total function, by comparison
with the plain fold (`Checked.foldlM_eq_ok`).

An attempt may also fail with an error; `Attempt.run_bind_eq_ok` opens a sequence of attempts
that came to an answer, and `Attempt.run_bind_eq_error` one that failed.

Arrays are read as functions of their index through `Array.getD`; `getD_set` says what a store
does to that reading.
-/

namespace Quasidefinite

/-! ## 1. Arrays as functions -/

theorem getD_set {α : Type} (xs : Array α) (i j : Nat) (h : i < xs.size) (x d : α) :
    (xs.set i x h).getD j d = if j = i then x else xs.getD j d := by
  simp only [Array.getD_eq_getD_getElem?, Array.getElem?_set]
  by_cases hj : j = i
  · simp [hj]
  · simp [hj, Ne.symm hj]

theorem getD_replicate {α : Type} (n i : Nat) (x : α) :
    (Array.replicate n x).getD i x = x := by
  by_cases hi : i < n
  · simp [Array.getD, hi]
  · simp [Array.getD, hi]

theorem getD_of_lt {α : Type} (xs : Array α) (i : Nat) (d : α) (h : i < xs.size) :
    xs.getD i d = xs[i] := by
  simp [Array.getD, h]

theorem getElem?_eq_getD {α : Type} (xs : Array α) {i : Nat} (d : α) (h : i < xs.size) :
    xs[i]? = some (xs.getD i d) := by
  rw [getD_of_lt _ _ _ h, Array.getElem?_eq_getElem h]

theorem getD_of_le {α : Type} (xs : Array α) (i : Nat) (d : α) (h : xs.size ≤ i) :
    xs.getD i d = d := by
  simp [Array.getD, Nat.not_lt.2 h]

theorem getD_extract_add {α : Type} (xs : Array α) {lo i hi : Nat} (d : α) (h : lo + i < hi) :
    (xs.extract lo hi).getD i d = xs.getD (lo + i) d := by
  rcases Nat.lt_or_ge (lo + i) xs.size with hi | hi
  · rw [getD_of_lt _ _ _ (by simp; omega), getD_of_lt _ _ _ hi, Array.getElem_extract]
  · rw [getD_of_le _ _ _ (by simp; omega), getD_of_le _ _ _ hi]

theorem getD_extract {α : Type} (xs : Array α) {i hi : Nat} (d : α) (h : i < hi) :
    (xs.extract 0 hi).getD i d = xs.getD i d := by
  rw [getD_extract_add xs d (by omega), Nat.zero_add]

/-- Arrays of one size that read the same are the same. -/
theorem ext_getD {α : Type} {xs ys : Array α} (d : α) (hsize : xs.size = ys.size)
    (h : ∀ i < xs.size, xs.getD i d = ys.getD i d) : xs = ys := by
  refine Array.ext hsize fun i hx hy => ?_
  have := h i hx
  rwa [getD_of_lt xs i d hx, getD_of_lt ys i d hy] at this

theorem toList_eq_map {α : Type} (xs : Array α) (d : α) :
    xs.toList = (List.range xs.size).map fun i => xs.getD i d := by
  refine List.ext_getElem (by simp) fun i hi _ => ?_
  rw [Array.getElem_toList, List.getElem_map, List.getElem_range,
    getD_of_lt xs i d (by simpa using hi)]

theorem getD_map {α β : Type} (f : α → β) (xs : Array α) {i : Nat} (d : α) (e : β)
    (h : i < xs.size) : (xs.map f).getD i e = f (xs.getD i d) := by
  rw [getD_of_lt _ _ _ (by rwa [Array.size_map]), getD_of_lt _ _ _ h, Array.getElem_map]

theorem getD_zipWith {α β γ : Type} (f : α → β → γ) {xs : Array α} {ys : Array β} {i : Nat} (d : α)
    (d' : β) (e : γ) (hx : i < xs.size) (hy : i < ys.size) :
    (Array.zipWith f xs ys).getD i e = f (xs.getD i d) (ys.getD i d') := by
  have h : i < (Array.zipWith f xs ys).size := by
    rw [Array.size_zipWith]
    exact Nat.lt_min.2 ⟨hx, hy⟩
  rw [getD_of_lt _ _ _ h, getD_of_lt _ _ _ hx, getD_of_lt _ _ _ hy, Array.getElem_zipWith]

theorem toList_extract {α : Type} (xs : Array α) (lo hi : Nat) (d : α) (h : hi ≤ xs.size) :
    (xs.extract lo hi).toList = (List.range' lo (hi - lo)).map fun p => xs.getD p d := by
  refine List.ext_getElem (by simp; omega) fun i h₁ h₂ => ?_
  simp only [Array.getElem_toList, Array.getElem_extract, List.getElem_map, List.getElem_range',
    Nat.one_mul]
  rw [getD_of_lt]

/-- Steps that answer by `g` make the list of these answers. -/
theorem mapM_eq_pure {m : Type → Type} [Monad m] [LawfulMonad m] {β γ : Type} {f : β → m γ}
    {g : β → γ} {xs : List β} (h : ∀ x ∈ xs, f x = pure (g x)) : xs.mapM f = pure (xs.map g) := by
  induction xs with
  | nil => rfl
  | cons x xs ih =>
    rw [List.mapM_cons, h x List.mem_cons_self, pure_bind,
      ih fun y hy => h y (List.mem_cons_of_mem x hy), pure_bind]
    rfl

namespace Checked

variable {α β σ : Type}

/-! ## 2. Sequences of steps -/

@[simp] theorem ok_bind (a : α) (f : α → Checked β) : (Except.ok a >>= f : Checked β) = f a := rfl

@[simp] theorem pure_eq_ok (a : α) : (pure a : Checked α) = .ok a := rfl

/-- A sequence of steps answers if and only if both parts do. -/
theorem bind_eq_ok {x : Checked α} {f : α → Checked β} {b : β} :
    x >>= f = .ok b ↔ ∃ a, x = .ok a ∧ f a = .ok b := by
  cases x with
  | ok a => simp
  | error e => exact iff_of_false (by rintro ⟨⟩) (by rintro ⟨a, ⟨⟩, -⟩)

/-- A computation whose new state is wrapped answers with a wrapped state. -/
theorem bind_pair_eq_ok {τ : Type} {x : Checked (σ × β)} {wrap : σ → τ} {t : τ} {b : β} :
    (x >>= fun r => pure (wrap r.1, r.2)) = .ok (t, b) ↔ ∃ s, x = .ok (s, b) ∧ t = wrap s := by
  rw [bind_eq_ok]
  constructor
  · rintro ⟨⟨s, c⟩, hx, h⟩
    cases h
    exact ⟨s, hx, rfl⟩
  · rintro ⟨s, hx, rfl⟩
    exact ⟨(s, b), hx, rfl⟩

/-- A computation answers if a part of its answer is known. -/
theorem exists_of_map {x : Checked α} {f : α → β} {b : β} (h : x.map f = .ok b) :
    ∃ a, x = .ok a ∧ f a = b := by
  cases x with
  | ok a => exact ⟨a, rfl, Except.ok.inj h⟩
  | error e => cases h

theorem require_eq_ok {p : Prop} [Decidable p] {f : Fault} {u : Unit} :
    require p f = .ok u ↔ p := by
  by_cases hp : p
  · simp [require, hp]
  · simp [require, hp]

theorem entry_eq (xs : Array α) (i : Nat) (d : α) (h : i < xs.size) :
    entry xs i = .ok (xs.getD i d) := by
  rw [entry_of_lt xs i h, getD_of_lt xs i d h]

theorem entry_eq_ok {xs : Array α} {i : Nat} {x : α} (d : α) (h : entry xs i = .ok x) :
    i < xs.size ∧ xs.getD i d = x := by
  unfold entry at h
  split at h
  · rename_i y hy
    obtain ⟨hi, rfl⟩ := Array.getElem?_eq_some_iff.1 hy
    cases h
    exact ⟨hi, getD_of_lt xs i d hi⟩
  · cases h

/-- The elements before position `n` are those of the whole array. -/
theorem entry_extract (xs : Array α) {i n : Nat} (h : i < n) :
    entry (xs.extract 0 n) i = entry xs i := by
  unfold entry
  rw [Array.getElem?_extract, Nat.zero_add]
  by_cases hi : i < xs.size
  · rw [if_pos (by omega)]
  · rw [if_neg (by omega), Array.getElem?_eq_none (Nat.not_lt.1 hi)]

theorem adjust_eq (xs : Array α) (i : Nat) (f : α → α) (d : α) (h : i < xs.size) :
    adjust xs i f = .ok (xs.set i (f (xs.getD i d)) h) := by
  rw [adjust_of_lt xs i f h, getD_of_lt xs i d h]

/-- Elements that there is room for can be pushed one after the other. -/
theorem foldlM_push {room : Nat} (xs stack : List α) (h : xs.length + stack.length ≤ room) :
    xs.foldlM (push room) stack = .ok (xs.reverse ++ stack) := by
  induction xs generalizing stack with
  | nil => rfl
  | cons x xs ih =>
    rw [List.length_cons] at h
    rw [List.foldlM_cons, push_of_lt x (by omega), ok_bind, ih (x :: stack) (by simp; omega),
      List.reverse_cons, List.append_assoc, List.singleton_append]

theorem slice_eq (xs : Array α) {lo hi : Nat} (h : lo ≤ hi) (h' : hi ≤ xs.size) :
    slice xs lo hi = .ok (xs.extract lo hi) := if_pos ⟨h, h'⟩

theorem slice_eq_ok {xs ys : Array α} {lo hi : Nat} :
    slice xs lo hi = .ok ys ↔ (lo ≤ hi ∧ hi ≤ xs.size) ∧ ys = xs.extract lo hi := by
  unfold slice
  split
  · rename_i hle
    rw [Except.ok.injEq, eq_comm]
    exact (and_iff_right hle).symm
  · rename_i hle
    exact iff_of_false nofun fun h => hle h.1

theorem size_of_store {xs ys : Array α} {i : Nat} {x : α} (h : store xs i x = .ok ys) :
    ys.size = xs.size := by
  unfold store at h
  split at h
  · cases h
    exact Array.size_set _
  · cases h

theorem size_of_adjust {xs ys : Array α} {i : Nat} {f : α → α} (h : adjust xs i f = .ok ys) :
    ys.size = xs.size := by
  unfold adjust at h
  split at h
  · cases h
    exact Array.size_set _
  · cases h

theorem lt_of_adjust {xs ys : Array α} {i : Nat} {f : α → α} (h : adjust xs i f = .ok ys) :
    i < xs.size := by
  unfold adjust at h
  split at h
  · assumption
  · cases h

/-! ## 3. Loops -/

/-- **The rule for loops over a list**: what holds before the first element and is kept by every
    step holds after the last one, and the loop does not fault. -/
theorem exists_foldlM (inv : List β → σ → Prop) (f : σ → β → Checked σ) (xs : List β) (s : σ)
    (hstart : inv [] s)
    (hstep : ∀ done x todo s, xs = done ++ x :: todo → inv done s →
      ∃ t, f s x = .ok t ∧ inv (done ++ [x]) t) :
    ∃ t, xs.foldlM f s = .ok t ∧ inv xs t := by
  suffices h : ∀ todo done s, xs = done ++ todo → inv done s →
      ∃ t, todo.foldlM f s = .ok t ∧ inv xs t from h xs [] s rfl hstart
  intro todo
  induction todo with
  | nil =>
    intro done s hxs hinv
    rw [List.append_nil] at hxs
    exact ⟨s, rfl, hxs ▸ hinv⟩
  | cons x todo ih =>
    intro done s hxs hinv
    obtain ⟨t, ht, hinv⟩ := hstep done x todo s hxs hinv
    obtain ⟨u, hu, hend⟩ := ih (done ++ [x]) t (by simp [hxs]) hinv
    exact ⟨u, by rw [List.foldlM_cons, ht, ok_bind, hu], hend⟩

/-- What every step keeps if it answers, a loop keeps if it answers. -/
theorem foldlM_keeps (inv : σ → Prop) {f : σ → β → Checked σ} {xs : List β} {s t : σ}
    (h : xs.foldlM f s = .ok t) (hstart : inv s)
    (hstep : ∀ s x t, inv s → f s x = .ok t → inv t) : inv t := by
  induction xs generalizing s with
  | nil =>
    cases h
    exact hstart
  | cons x xs ih =>
    rw [List.foldlM_cons] at h
    obtain ⟨u, hu, h⟩ := bind_eq_ok.1 h
    exact ih h (hstep s x u hstart hu)

theorem foldRange_keeps (inv : σ → Prop) {f : σ → Nat → Checked σ} {lo hi : Nat} {s t : σ}
    (h : foldRange lo hi f s = .ok t) (hstart : inv s)
    (hstep : ∀ s i t, inv s → f s i = .ok t → inv t) : inv t := by
  rw [foldRange_eq_foldlM] at h
  exact foldlM_keeps inv h hstart hstep

theorem foldFrom_induct (inv : Nat → σ → Prop) {f : σ → Nat → Checked σ} {count start : Nat}
    {s t : σ} (h : foldFrom f count start s = .ok t) (hstart : inv start s)
    (hstep : ∀ i s t, start ≤ i → i < start + count → inv i s → f s i = .ok t → inv (i + 1) t) :
    inv (start + count) t := by
  induction count generalizing start s with
  | zero =>
    cases h
    exact hstart
  | succ count ih =>
    rw [foldFrom_succ] at h
    obtain ⟨u, hu, h⟩ := bind_eq_ok.1 h
    have hend := ih h (hstep start s u (Nat.le_refl start) (by omega) hstart hu)
      fun i s t hlo hhi => hstep i s t (by omega) (by omega)
    rwa [Nat.add_right_comm] at hend

/-- What every step keeps if it answers, an ascending loop keeps if it answers; the invariant may
    look at the index. -/
theorem foldRange_induct (inv : Nat → σ → Prop) {f : σ → Nat → Checked σ} {lo hi : Nat} {s t : σ}
    (hle : lo ≤ hi) (h : foldRange lo hi f s = .ok t) (hstart : inv lo s)
    (hstep : ∀ i s t, lo ≤ i → i < hi → inv i s → f s i = .ok t → inv (i + 1) t) : inv hi t := by
  have hend := foldFrom_induct inv h hstart fun i s t hlo hhi => hstep i s t hlo (by omega)
  rwa [Nat.add_sub_of_le hle] at hend

theorem foldlM_congr {f g : σ → β → Checked σ} {xs : List β} (h : ∀ x ∈ xs, ∀ s, f s x = g s x)
    (s : σ) : xs.foldlM f s = xs.foldlM g s := by
  induction xs generalizing s with
  | nil => rfl
  | cons x xs ih =>
    rw [List.foldlM_cons, List.foldlM_cons, h x List.mem_cons_self s]
    exact bind_congr fun s => ih (fun y hy => h y (List.mem_cons_of_mem x hy)) s

theorem foldRange_congr {f g : σ → Nat → Checked σ} {lo hi : Nat}
    (h : ∀ i, lo ≤ i → i < hi → ∀ s, f s i = g s i) (s : σ) :
    foldRange lo hi f s = foldRange lo hi g s := by
  rw [foldRange_eq_foldlM, foldRange_eq_foldlM]
  refine foldlM_congr (fun i hi => ?_) s
  rw [List.mem_range'_1] at hi
  exact h i hi.1 (by omega)

/-- A loop whose steps answer by `g` as long as `inv` holds is the plain fold by `g`. -/
theorem foldlM_eq_ok (inv : σ → Prop) (f : σ → β → Checked σ) (g : σ → β → σ) (xs : List β) (s : σ)
    (hstart : inv s) (hstep : ∀ s x, x ∈ xs → inv s → f s x = .ok (g s x) ∧ inv (g s x)) :
    xs.foldlM f s = .ok (xs.foldl g s) ∧ inv (xs.foldl g s) := by
  induction xs generalizing s with
  | nil => exact ⟨rfl, hstart⟩
  | cons x xs ih =>
    obtain ⟨hx, hinv⟩ := hstep s x List.mem_cons_self hstart
    obtain ⟨hxs, hend⟩ := ih (g s x) hinv fun s y hy => hstep s y (List.mem_cons_of_mem x hy)
    exact ⟨by rw [List.foldlM_cons, hx, ok_bind, hxs, List.foldl_cons], hend⟩

/-- Changing the entries at different positions one after the other. -/
theorem exists_foldlM_adjust (d : α) (indices : List Nat) (f : α → α) (xs : Array α)
    (hnodup : indices.Nodup) (hlt : ∀ i ∈ indices, i < xs.size) :
    ∃ ys, indices.foldlM (fun xs i => adjust xs i f) xs = .ok ys ∧ ys.size = xs.size ∧
      ∀ q, ys.getD q d = if q ∈ indices then f (xs.getD q d) else xs.getD q d := by
  induction indices generalizing xs with
  | nil => exact ⟨xs, rfl, rfl, fun q => by simp⟩
  | cons i indices ih =>
    rw [List.nodup_cons] at hnodup
    have hi := hlt i List.mem_cons_self
    obtain ⟨ys, hrun, hsize, hget⟩ := ih (xs.set i (f (xs.getD i d))) hnodup.2 fun j hj => by
      rw [Array.size_set]
      exact hlt j (List.mem_cons_of_mem i hj)
    refine ⟨ys, ?_, by rw [hsize, Array.size_set], fun q => ?_⟩
    · rw [List.foldlM_cons, adjust_eq _ _ _ d hi, ok_bind, hrun]
    · rw [hget, getD_set]
      by_cases hq : q = i
      · subst hq
        rw [if_neg hnodup.1, if_pos rfl, if_pos List.mem_cons_self]
      · rw [if_neg hq]
        simp only [List.mem_cons, hq, false_or]

/-- The rule for loops over descending indices. -/
theorem exists_foldDown (inv : Nat → σ → Prop) (f : σ → Nat → Checked σ) (n : Nat) (s : σ)
    (hstart : inv n s)
    (hstep : ∀ i s, i < n → inv (i + 1) s → ∃ t, f s i = .ok t ∧ inv i t) :
    ∃ t, foldDown f n s = .ok t ∧ inv 0 t := by
  induction n generalizing s with
  | zero => exact ⟨s, rfl, hstart⟩
  | succ n ih =>
    obtain ⟨t, ht, hinv⟩ := hstep n s (Nat.lt_succ_self n) hstart
    obtain ⟨u, hu, hend⟩ := ih t hinv fun i s hi => hstep i s (by omega)
    refine ⟨u, ?_, hend⟩
    rw [foldDown, ht]
    exact hu

/-- A test of all indices that answers at each of them answers, and its answer is whether all of
    them pass. -/
theorem allRange_eq_ok (p : Nat → Checked Bool) (q : Nat → Bool) (lo hi : Nat)
    (h : ∀ i, lo ≤ i → i < hi → p i = .ok (q i)) :
    allRange lo hi p = .ok ((List.range' lo (hi - lo)).all q) := by
  suffices hfrom : ∀ count start, (∀ i, start ≤ i → i < start + count → p i = .ok (q i)) →
      allFrom p count start = .ok ((List.range' start count).all q) from
    hfrom (hi - lo) lo fun i hlo hhi => h i hlo (by omega)
  intro count
  induction count with
  | zero => intro start _; rfl
  | succ count ih =>
    intro start hp
    rw [allFrom, hp start (Nat.le_refl start) (by omega), List.range'_succ, List.all_cons]
    cases hq : q start with
    | false => rfl
    | true =>
      rw [Bool.true_and]
      exact ih (start + 1) fun i hlo hhi => hp i (by omega) (by omega)

/-- A test of all indices answers if it answers at each of them. -/
theorem exists_allRange (p : Nat → Checked Bool) (lo hi : Nat)
    (h : ∀ i, lo ≤ i → i < hi → ∃ b, p i = .ok b) : ∃ b, allRange lo hi p = .ok b := by
  refine ⟨_, allRange_eq_ok p (fun i => (p i).toOption.getD false) lo hi fun i hlo hhi => ?_⟩
  obtain ⟨b, hb⟩ := h i hlo hhi
  rw [hb]
  rfl

end Checked

/-! ## 4. Stores one after the other -/

section Overwrite

variable {α : Type}

/-- Writes values one after the other, each to its place. -/
def overwrite (xs : Array α) (pairs : List (Nat × α)) : Array α :=
  pairs.foldl (fun xs e => xs.setIfInBounds e.1 e.2) xs

@[simp] theorem overwrite_cons (xs : Array α) (e : Nat × α) (pairs : List (Nat × α)) :
    overwrite xs (e :: pairs) = overwrite (xs.setIfInBounds e.1 e.2) pairs := rfl

theorem setIfInBounds_of_lt (xs : Array α) (i : Nat) (x : α) (h : i < xs.size) :
    xs.setIfInBounds i x = xs.set i x := by
  rw [Array.setIfInBounds, dif_pos h]

@[simp] theorem size_overwrite (xs : Array α) (pairs : List (Nat × α)) :
    (overwrite xs pairs).size = xs.size := by
  induction pairs generalizing xs with
  | nil => rfl
  | cons e es ih => rw [overwrite_cons, ih, Array.size_setIfInBounds]

/-- Checked stores overwrite the array. -/
theorem Checked.foldlM_store_eq (pairs : List (Nat × α)) (xs : Array α)
    (h : ∀ e ∈ pairs, e.1 < xs.size) :
    pairs.foldlM (fun xs e => store xs e.1 e.2) xs = .ok (overwrite xs pairs) := by
  induction pairs generalizing xs with
  | nil => rfl
  | cons e es ih =>
    have he := h e List.mem_cons_self
    rw [List.foldlM_cons, store_of_lt _ _ _ he, ok_bind, overwrite_cons,
      setIfInBounds_of_lt _ _ _ he]
    exact ih _ fun e' he' => by
      rw [Array.size_set]
      exact h e' (List.mem_cons_of_mem e he')

theorem getD_setIfInBounds_of_ne (xs : Array α) {i j : Nat} (x d : α) (h : j ≠ i) :
    (xs.setIfInBounds i x).getD j d = xs.getD j d := by
  simp only [Array.getD_eq_getD_getElem?]
  rw [Array.getElem?_setIfInBounds_ne h.symm]

theorem getD_overwrite_of_not_mem (xs : Array α) (pairs : List (Nat × α)) (d : α) {q : Nat}
    (h : ∀ e ∈ pairs, e.1 ≠ q) : (overwrite xs pairs).getD q d = xs.getD q d := by
  induction pairs generalizing xs with
  | nil => rfl
  | cons e es ih =>
    rw [overwrite_cons, ih _ fun e' he' => h e' (List.mem_cons_of_mem e he'),
      getD_setIfInBounds_of_ne _ _ _ (h e List.mem_cons_self).symm]

/-- The value written to a place that is written once. -/
theorem getD_overwrite_of_mem (xs : Array α) {pairs : List (Nat × α)} (d : α)
    (hnodup : (pairs.map Prod.fst).Nodup) {e : Nat × α} (he : e ∈ pairs) (hlt : e.1 < xs.size) :
    (overwrite xs pairs).getD e.1 d = e.2 := by
  induction pairs generalizing xs with
  | nil => cases he
  | cons f fs ih =>
    rw [List.map_cons, List.nodup_cons] at hnodup
    rw [overwrite_cons]
    rcases List.mem_cons.1 he with rfl | hmem
    · rw [getD_overwrite_of_not_mem, setIfInBounds_of_lt _ _ _ hlt, getD_set, if_pos rfl]
      intro f hf heq
      exact hnodup.1 (heq ▸ List.mem_map_of_mem hf)
    · exact ih _ hnodup.2 hmem (by rw [Array.size_setIfInBounds]; exact hlt)

end Overwrite

/-! ## 5. Attempts -/

namespace Attempt

variable {ε δ α β : Type}

theorem run_bind_of_ok {x : Attempt ε α} {a : α} (f : α → Attempt ε β) (h : x.run = .ok (.ok a)) :
    (x >>= f).run = (f a).run := by
  rw [ExceptT.run_bind, h]
  rfl

theorem run_bind_of_error {x : Attempt ε α} {e : ε} (f : α → Attempt ε β)
    (h : x.run = .ok (.error e)) : (x >>= f).run = .ok (.error e) := by
  rw [ExceptT.run_bind, h]
  rfl

theorem run_bind_of_fault {x : Attempt ε α} {fault : Fault} (f : α → Attempt ε β)
    (h : x.run = .error fault) : (x >>= f).run = .error fault := by
  rw [ExceptT.run_bind, h]
  rfl

/-- **A sequence of attempts answers if and only if both parts do.** -/
theorem run_bind_eq_ok {x : Attempt ε α} {f : α → Attempt ε β} {b : β} :
    (x >>= f).run = .ok (.ok b) ↔ ∃ a, x.run = .ok (.ok a) ∧ (f a).run = .ok (.ok b) := by
  constructor
  · intro h
    match hx : x.run with
    | .ok (.ok a) => exact ⟨a, rfl, by rwa [run_bind_of_ok f hx] at h⟩
    | .ok (.error e) =>
      rw [run_bind_of_error f hx] at h
      cases h
    | .error fault =>
      rw [run_bind_of_fault f hx] at h
      cases h
  · rintro ⟨a, hx, ha⟩
    rw [run_bind_of_ok f hx, ha]

theorem run_lift_eq_ok {x : Checked α} {a : α} :
    (liftM x : Attempt ε α).run = .ok (.ok a) ↔ x = .ok a := by
  cases x with
  | ok b =>
    show (Except.ok (Except.ok b) : Except Fault (Except ε α)) = _ ↔ _
    simp
  | error e =>
    show (Except.error e : Except Fault (Except ε α)) = _ ↔ _
    simp

theorem run_lift_of_ok {x : Checked α} {a : α} (h : x = .ok a) :
    (liftM x : Attempt ε α).run = .ok (.ok a) := run_lift_eq_ok.2 h

theorem run_lift_of_error {x : Checked α} {fault : Fault} (h : x = .error fault) :
    (liftM x : Attempt ε α).run = .error fault := by
  rw [h]
  rfl

theorem run_ensure_eq_ok {p : Prop} [Decidable p] {e : ε} {u : Unit} :
    (ensure p e).run = .ok (.ok u) ↔ p := by
  by_cases hp : p
  · simp [ensure, hp]
  · simp [ensure, hp]

theorem run_ensure_of {p : Prop} [Decidable p] {e : ε} (h : p) : (ensure p e).run = .ok (.ok ()) :=
  run_ensure_eq_ok.2 h

theorem run_ofExcept (f : δ → ε) (x : Except δ α) :
    (ofExcept f x).run = .ok (x.mapError f) := by
  cases x <;> rfl

theorem run_ofExcept_eq_ok {f : δ → ε} {x : Except δ α} {a : α} :
    (ofExcept f x).run = .ok (.ok a) ↔ x = .ok a := by
  cases x with
  | ok b =>
    show (Except.ok (Except.ok b) : Except Fault (Except ε α)) = _ ↔ _
    simp
  | error e =>
    show (Except.ok (Except.error (f e)) : Except Fault (Except ε α)) = _ ↔ _
    simp

theorem run_mapError_of_ok {f : δ → ε} {x : Attempt δ α} {r : Except δ α} (h : x.run = .ok r) :
    (mapError f x).run = .ok (r.mapError f) := by
  have h : x = Except.ok r := h
  subst h
  cases r <;> rfl

theorem run_mapError_eq_ok {f : δ → ε} {x : Attempt δ α} {a : α} :
    (mapError f x).run = .ok (.ok a) ↔ x.run = .ok (.ok a) := by
  constructor
  · intro h
    match hx : x.run with
    | .error fault =>
      have hx : x = Except.error fault := hx
      subst hx
      cases h
    | .ok r =>
      rw [run_mapError_of_ok hx] at h
      cases r with
      | ok b =>
        cases h
        rfl
      | error e => cases Except.ok.inj h
  · exact run_mapError_of_ok

theorem run_pure_eq_ok {a b : α} : (pure a : Attempt ε α).run = .ok (.ok b) ↔ a = b := by
  simp

/-- **A sequence of attempts fails if and only if one of its parts does** after those before it have
    answered. -/
theorem run_bind_eq_error {x : Attempt ε α} {f : α → Attempt ε β} {e : ε} :
    (x >>= f).run = .ok (.error e) ↔
      x.run = .ok (.error e) ∨ ∃ a, x.run = .ok (.ok a) ∧ (f a).run = .ok (.error e) := by
  constructor
  · intro h
    match hx : x.run with
    | .ok (.ok a) => exact .inr ⟨a, rfl, by rwa [run_bind_of_ok f hx] at h⟩
    | .ok (.error d) =>
      rw [run_bind_of_error f hx] at h
      cases h
      exact .inl rfl
    | .error fault =>
      rw [run_bind_of_fault f hx] at h
      cases h
  · rintro (hx | ⟨a, hx, ha⟩)
    · exact run_bind_of_error f hx
    · rw [run_bind_of_ok f hx, ha]

theorem run_lift_ne_error {x : Checked α} {e : ε} :
    (liftM x : Attempt ε α).run ≠ .ok (.error e) := by
  cases x <;> nofun

/-- A step that cannot fail leaves the failure to the rest. -/
theorem run_lift_bind_eq_error {x : Checked α} {f : α → Attempt ε β} {e : ε} :
    ((liftM x : Attempt ε α) >>= f).run = .ok (.error e) ↔
      ∃ a, x = .ok a ∧ (f a).run = .ok (.error e) := by
  rw [run_bind_eq_error, or_iff_right run_lift_ne_error]
  simp only [run_lift_eq_ok]

theorem run_ofExcept_eq_error {f : δ → ε} {x : Except δ α} {e : ε} :
    (ofExcept f x).run = .ok (.error e) ↔ ∃ d, x = .error d ∧ f d = e := by
  cases x with
  | ok a => exact iff_of_false nofun nofun
  | error d =>
    show (Except.ok (Except.error (f d)) : Except Fault (Except ε α)) = _ ↔ _
    simp

theorem run_mapError_eq_error {f : δ → ε} {x : Attempt δ α} {e : ε} :
    (mapError f x).run = .ok (.error e) ↔ ∃ d, x.run = .ok (.error d) ∧ f d = e := by
  match hx : x.run with
  | .error fault =>
    have hx : x = Except.error fault := hx
    subst hx
    exact iff_of_false nofun nofun
  | .ok (.ok a) =>
    rw [run_mapError_of_ok hx]
    exact iff_of_false nofun nofun
  | .ok (.error d) =>
    rw [run_mapError_of_ok hx]
    show (Except.ok (Except.error (f d)) : Except Fault (Except ε α)) = _ ↔ _
    simp

/-- **A sequence of attempts does not fault if no part does.** -/
theorem exists_run_bind {x : Attempt ε α} {f : α → Attempt ε β} (hx : ∃ r, x.run = .ok r)
    (hf : ∀ a, x.run = .ok (.ok a) → ∃ r, (f a).run = .ok r) : ∃ r, (x >>= f).run = .ok r := by
  obtain ⟨r, hr⟩ := hx
  cases r with
  | ok a =>
    obtain ⟨r, hf⟩ := hf a hr
    exact ⟨r, by rw [run_bind_of_ok f hr, hf]⟩
  | error e => exact ⟨.error e, run_bind_of_error f hr⟩

theorem exists_run_ensure (p : Prop) [Decidable p] (e : ε) : ∃ r, (ensure p e).run = .ok r := by
  by_cases hp : p
  · exact ⟨.ok (), run_ensure_of hp⟩
  · exact ⟨.error e, by simp [ensure, hp]⟩

theorem exists_run_lift {x : Checked α} (h : ∃ a, x = .ok a) :
    ∃ r, (liftM x : Attempt ε α).run = .ok r := by
  obtain ⟨a, ha⟩ := h
  exact ⟨.ok a, run_lift_of_ok ha⟩

/-- An attempt at every element of a list does not fault if none of them does. -/
theorem exists_run_forM {f : α → Attempt ε Unit} {xs : List α}
    (h : ∀ x ∈ xs, ∃ r, (f x).run = .ok r) :
    ∃ r, (xs.forM f).run = .ok r := by
  induction xs with
  | nil => exact ⟨.ok (), rfl⟩
  | cons x xs ih =>
    exact exists_run_bind (h x List.mem_cons_self) fun _ _ =>
      ih fun y hy => h y (List.mem_cons_of_mem x hy)

/-- The answer of an attempt, if there is one. -/
def answer? (x : Attempt ε α) : Option α :=
  match x.run with
  | .ok (.ok a) => some a
  | _ => none

theorem run_of_answer? {x : Attempt ε α} {a : α} (h : x.answer? = some a) :
    x.run = .ok (.ok a) := by
  unfold answer? at h
  split at h
  · rename_i b hb
    rw [hb, Option.some.inj h]
  · cases h

end Attempt

end Quasidefinite

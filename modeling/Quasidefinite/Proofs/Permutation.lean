import Mathlib.Data.Fintype.EquivFin
import Quasidefinite.Permutation
import Quasidefinite.Proofs.Loop

/-!
# What permutations do

An array that has an inverse is a permutation, and the inverse undoes it on both sides
(`Permutation.isInverse_of_inverse?`); these are the arrays that list every position once
(`Permutation.isSome_inverse?_iff`). Moving the entries of a vector along a permutation answers
with the vector read through the permutation (`exists_gather`) or through its inverse
(`exists_scatter`).
-/

namespace Quasidefinite

namespace Permutation

/-! ## 1. The inverse -/

/-- The arrays are permutations that undo each other. -/
structure IsInverse (p label : Array Nat) : Prop where
  size_eq : label.size = p.size
  lt : ∀ i < p.size, p.getD i 0 < p.size
  label_lt : ∀ j < p.size, label.getD j 0 < p.size
  label_perm : ∀ i < p.size, label.getD (p.getD i 0) 0 = i
  perm_label : ∀ j < p.size, p.getD (label.getD j 0) 0 = j

/-- A position is entered in a slot that is free. -/
theorem place_eq_some {slots slots' : Array (Option Nat)} {j i : Nat} :
    place slots (j, i) = some slots' ↔
      slots[j]? = some none ∧ slots' = slots.setIfInBounds j (some i) := by
  rw [place]
  by_cases hfree : slots[j]? = some none
  · rw [if_pos hfree, Option.some.injEq, eq_comm]
    exact (and_iff_right hfree).symm
  · rw [if_neg hfree]
    exact iff_of_false (Option.some_ne_none slots').symm fun h => hfree h.1

theorem getElem?_placed {slots : Array (Option Nat)} {j : Nat} (hfree : slots[j]? = some none)
    (i x : Nat) :
    (slots.setIfInBounds j (some i))[x]? = if j = x then some (some i) else slots[x]? := by
  obtain ⟨hj, -⟩ := Array.getElem?_eq_some_iff.1 hfree
  rw [Array.getElem?_setIfInBounds]
  by_cases hx : j = x
  · rw [if_pos hx, if_pos hx, if_pos (hx ▸ hj)]
  · rw [if_neg hx, if_neg hx]

/-- Positions entered in slots are found there, and nothing else is. -/
theorem of_foldlM_place {pairs : List (Nat × Nat)} {slots slots' : Array (Option Nat)}
    (h : pairs.foldlM place slots = some slots') :
    slots'.size = slots.size ∧
    (∀ j i : Nat, slots[j]? = some (some i) → slots'[j]? = some (some i)) ∧
    (∀ e ∈ pairs, slots'[e.1]? = some (some e.2)) ∧
    ∀ j i : Nat, slots'[j]? = some (some i) → slots[j]? = some (some i) ∨ (j, i) ∈ pairs := by
  induction pairs generalizing slots with
  | nil =>
    obtain rfl : slots = slots' := by simpa using h
    exact ⟨rfl, fun j i hi => hi, fun e he => (List.not_mem_nil he).elim, fun j i hi => .inl hi⟩
  | cons e es ih =>
    rw [List.foldlM_cons] at h
    obtain ⟨mid, hmid, hrest⟩ := Option.bind_eq_some_iff.1 h
    obtain ⟨hsize, hkeep, hmem, honly⟩ := ih hrest
    obtain ⟨j, i⟩ := e
    obtain ⟨hfree, rfl⟩ := place_eq_some.1 hmid
    have hget := getElem?_placed hfree i
    refine ⟨by simpa using hsize, ?_, ?_, ?_⟩
    · intro x y hxy
      refine hkeep x y ?_
      rw [hget, if_neg, hxy]
      rintro rfl
      rw [hfree] at hxy
      cases hxy
    · intro e he
      rcases List.mem_cons.1 he with rfl | he
      · exact hkeep _ _ (by rw [hget, if_pos rfl])
      · exact hmem e he
    · intro x y hxy
      rcases honly x y hxy with hold | hnew
      · rw [hget] at hold
        split at hold
        · rename_i hx
          obtain rfl : i = y := by simpa using hold
          exact .inr (by simp [hx])
        · exact .inl hold
      · exact .inr (List.mem_cons_of_mem _ hnew)

theorem map_some_of_mapM_id {slots : List (Option Nat)} {xs : List Nat}
    (h : slots.mapM id = some xs) : slots = xs.map some := by
  induction slots generalizing xs with
  | nil =>
    obtain rfl : xs = [] := by simpa using h.symm
    rfl
  | cons s ss ih =>
    rw [List.mapM_cons] at h
    obtain ⟨y, hy, h⟩ := Option.bind_eq_some_iff.1 h
    obtain ⟨ys, hys, h⟩ := Option.bind_eq_some_iff.1 h
    obtain rfl : y :: ys = xs := by simpa using h
    rw [List.map_cons, ← ih hys]
    exact congrArg (· :: ss) hy

/-- **An array with an inverse is a permutation, and the inverse undoes it.** -/
theorem isInverse_of_inverse? {p label : Array Nat} (h : inverse? p = some label) :
    IsInverse p label := by
  obtain ⟨slots, hslots, h⟩ := Option.bind_eq_some_iff.1 h
  obtain ⟨inverse, hinverse, h⟩ := Option.bind_eq_some_iff.1 h
  obtain rfl : inverse.toArray = label := by simpa using h
  obtain ⟨hsize, -, hmem, honly⟩ := of_foldlM_place hslots
  rw [Array.size_replicate] at hsize
  have hmap := map_some_of_mapM_id hinverse
  have hlength : inverse.length = p.size := by
    rw [← hsize, ← Array.length_toList, hmap, List.length_map]
  have hslot : ∀ j < p.size, slots[j]? = some (some (inverse.toArray.getD j 0)) := by
    intro j hj
    have hj' : j < inverse.length := hlength ▸ hj
    rw [← Array.getElem?_toList, hmap, List.getElem?_map, List.getElem?_eq_getElem hj',
      getD_of_lt _ _ _ (by simpa using hj')]
    simp
  have hpair : ∀ i < p.size, slots[p.getD i 0]? = some (some i) := by
    intro i hi
    refine hmem (p.getD i 0, i) ?_
    rw [List.mem_zipIdx_iff_getElem?, getD_of_lt _ _ _ hi]
    simp
  have hentry : ∀ j < p.size, inverse.toArray.getD j 0 < p.size ∧
      p.getD (inverse.toArray.getD j 0) 0 = j := by
    intro j hj
    rcases honly j _ (hslot j hj) with hnone | hmem'
    · rw [Array.getElem?_replicate] at hnone
      split at hnone
      · cases hnone
      · cases hnone
    · rw [List.mem_zipIdx_iff_getElem?] at hmem'
      obtain ⟨hlt, heq⟩ := List.getElem?_eq_some_iff.1 hmem'
      rw [Array.length_toList] at hlt
      exact ⟨hlt, by rw [getD_of_lt _ _ _ hlt]; simpa using heq⟩
  have hlt : ∀ i < p.size, p.getD i 0 < p.size := by
    intro i hi
    rw [← hsize]
    exact (Array.getElem?_eq_some_iff.1 (hpair i hi)).1
  exact
    { size_eq := by rw [List.size_toArray, hlength]
      lt := hlt
      label_lt := fun j hj => (hentry j hj).1
      label_perm := by
        intro i hi
        have hboth := (hslot _ (hlt i hi)).symm.trans (hpair i hi)
        simpa using hboth
      perm_label := fun j hj => (hentry j hj).2 }

/-- Positions for different free slots can be entered. -/
theorem exists_foldlM_place {pairs : List (Nat × Nat)} {slots : Array (Option Nat)}
    (hfree : ∀ e ∈ pairs, slots[e.1]? = some none) (hnodup : (pairs.map Prod.fst).Nodup) :
    ∃ slots', pairs.foldlM place slots = some slots' := by
  induction pairs generalizing slots with
  | nil => exact ⟨slots, rfl⟩
  | cons e es ih =>
    rw [List.map_cons, List.nodup_cons] at hnodup
    have hrest : ∀ e' ∈ es, (slots.setIfInBounds e.1 (some e.2))[e'.1]? = some none := by
      intro e' he'
      have hne : e.1 ≠ e'.1 := fun heq => hnodup.1 (List.mem_map.2 ⟨e', he', heq.symm⟩)
      rw [Array.getElem?_setIfInBounds_ne hne]
      exact hfree e' (List.mem_cons_of_mem e he')
    obtain ⟨slots', hrun⟩ := ih hrest hnodup.2
    refine ⟨slots', ?_⟩
    rw [List.foldlM_cons, place, if_pos (hfree e List.mem_cons_self)]
    exact hrun

namespace IsInverse

variable {p label : Array Nat} (h : IsInverse p label)

include h

theorem label_inj {i j : Nat} (hi : i < p.size) (hj : j < p.size)
    (hij : label.getD i 0 = label.getD j 0) : i = j := by
  rw [← h.perm_label i hi, ← h.perm_label j hj, hij]

theorem perm_inj {i j : Nat} (hi : i < p.size) (hj : j < p.size)
    (hij : p.getD i 0 = p.getD j 0) : i = j := by
  rw [← h.label_perm i hi, ← h.label_perm j hj, hij]

/-- No position is listed twice. -/
theorem nodup : p.toList.Nodup := by
  rw [List.nodup_iff_getElem?_ne_getElem?]
  intro i j hij hj hsame
  rw [Array.length_toList] at hj
  refine Nat.ne_of_lt hij (h.perm_inj (Nat.lt_trans hij hj) hj ?_)
  rw [Array.getD_eq_getD_getElem?, Array.getD_eq_getD_getElem?, ← Array.getElem?_toList,
    ← Array.getElem?_toList, hsame]

/-- A permutation lists every position. -/
theorem perm_range : p.toList.Perm (List.range p.size) := by
  refine (List.perm_ext_iff_of_nodup h.nodup List.nodup_range).2 fun j => ?_
  rw [toList_eq_map p 0, List.mem_map, List.mem_range]
  constructor
  · rintro ⟨i, hi, rfl⟩
    exact h.lt i (List.mem_range.1 hi)
  · intro hj
    exact ⟨label.getD j 0, List.mem_range.2 (h.label_lt j hj), h.perm_label j hj⟩

/-- **A permutation has its inverse.** -/
theorem inverse?_eq : inverse? p = some label := by
  have hpairs : ∀ e ∈ p.toList.zipIdx, e.2 < p.size ∧ p.getD e.2 0 = e.1 := by
    intro e he
    rw [List.mem_zipIdx_iff_getElem?] at he
    obtain ⟨hi, heq⟩ := List.getElem?_eq_some_iff.1 he
    rw [Array.length_toList] at hi
    exact ⟨hi, by rw [getD_of_lt _ _ _ hi]; simpa using heq⟩
  have hfree : ∀ e ∈ p.toList.zipIdx,
      (Array.replicate p.size (none : Option Nat))[e.1]? = some none := by
    intro e he
    obtain ⟨hi, heq⟩ := hpairs e he
    rw [Array.getElem?_replicate, if_pos (heq ▸ h.lt _ hi)]
  obtain ⟨slots, hslots⟩ := exists_foldlM_place hfree (by
    rw [List.zipIdx_map_fst]
    exact h.nodup)
  obtain ⟨hsize, -, hmem, -⟩ := of_foldlM_place hslots
  rw [Array.size_replicate] at hsize
  have hfilled : slots.toList = label.toList.map some := by
    refine List.ext_getElem (by simp [hsize, h.size_eq]) fun j hj _ => ?_
    rw [Array.length_toList, hsize] at hj
    have hlabel := h.label_lt j hj
    have hentered := hmem (p.getD (label.getD j 0) 0, label.getD j 0) (by
      rw [List.mem_zipIdx_iff_getElem?, getD_of_lt _ _ _ hlabel]
      simp)
    rw [h.perm_label j hj] at hentered
    obtain ⟨_, heq⟩ := Array.getElem?_eq_some_iff.1 hentered
    rw [Array.getElem_toList, heq, List.getElem_map, Array.getElem_toList,
      getD_of_lt _ _ _ (h.size_eq ▸ hj)]
  unfold inverse?
  rw [hslots, Option.bind_eq_bind, Option.bind_some, hfilled, mapM_id_map_some]
  rfl

/-- The labels below `n` of a permutation that keeps them below `n` come from below `n`. -/
theorem lt_of_label_lt {n : Nat} (hn : n ≤ p.size) (hlabel : ∀ j < n, label.getD j 0 < n) :
    ∀ i < n, p.getD i 0 < n := by
  intro i hi
  have hinj : Function.Injective fun j : Fin n => (⟨label.getD j 0, hlabel j j.2⟩ : Fin n) :=
    fun j k hjk => Fin.ext (h.label_inj (by omega) (by omega) (Fin.mk.inj hjk))
  obtain ⟨j, hj⟩ := Finite.surjective_of_injective hinj ⟨i, hi⟩
  have hj : label.getD j 0 = i := Fin.mk.inj hj
  rw [← hj, h.perm_label j (by omega)]
  exact j.2

/-- A permutation that keeps the labels below `n` below `n` is a permutation of them. -/
theorem extract {n : Nat} (hn : n ≤ p.size) (hlabel : ∀ j < n, label.getD j 0 < n) :
    IsInverse (p.extract 0 n) (label.extract 0 n) := by
  have hlt := h.lt_of_label_lt hn hlabel
  have hsize : (p.extract 0 n).size = n := by simp [hn]
  refine
    { size_eq := by simp [h.size_eq]
      lt := ?_
      label_lt := ?_
      label_perm := ?_
      perm_label := ?_ }
  all_goals
    rw [hsize]
    intro i hi
    have hi' := Nat.lt_of_lt_of_le hi hn
  · rw [getD_extract _ _ hi]
    exact hlt i hi
  · rw [getD_extract _ _ hi]
    exact hlabel i hi
  · rw [getD_extract _ _ hi, getD_extract _ _ (hlt i hi), h.label_perm i hi']
  · rw [getD_extract _ _ hi, getD_extract _ _ (hlabel i hi), h.perm_label i hi']

end IsInverse

/-- An array that lists every position once can be undone. -/
theorem exists_isInverse {p : Array Nat} (h : p.toList.Perm (List.range p.size)) :
    ∃ label, IsInverse p label := by
  have hnodup : p.toList.Nodup := h.nodup_iff.2 List.nodup_range
  have hmem : ∀ j, j ∈ p.toList ↔ j < p.size := fun j => h.mem_iff.trans List.mem_range
  have hget : ∀ i < p.size, p.toList[i]? = some (p.getD i 0) := fun i hi => by
    rw [Array.getElem?_toList, getElem?_eq_getD _ _ hi]
  have hlt : ∀ i < p.size, p.getD i 0 < p.size := fun i hi =>
    (hmem _).1 (List.mem_of_getElem? (hget i hi))
  have hidx : ∀ j < p.size, p.toList.idxOf j < p.size := fun j hj => by
    rw [← Array.length_toList]
    exact List.idxOf_lt_length_of_mem ((hmem j).2 hj)
  -- position `j` of the inverse holds the place where `j` is listed
  have hlabel : ∀ j < p.size,
      ((List.range p.size).map p.toList.idxOf).toArray.getD j 0 = p.toList.idxOf j :=
    fun j hj => by
      rw [getD_of_lt _ _ _ (by simpa using hj)]
      simp
  refine
    ⟨((List.range p.size).map p.toList.idxOf).toArray,
      { size_eq := by simp
        lt := hlt
        label_lt := fun j hj => ?_
        label_perm := fun i hi => ?_
        perm_label := fun j hj => ?_ }⟩
  · rw [hlabel j hj]
    exact hidx j hj
  · rw [hlabel _ (hlt i hi)]
    refine (List.getElem?_inj ((hidx _ (hlt i hi)).trans_eq p.length_toList.symm) hnodup).1 ?_
    rw [List.getElem?_idxOf ((hmem _).2 (hlt i hi)), hget i hi]
  · rw [hlabel j hj]
    refine Option.some.inj ((hget _ (hidx j hj)).symm.trans ?_)
    exact List.getElem?_idxOf ((hmem j).2 hj)

/-- **The arrays with an inverse are those that list every position once.** -/
theorem isSome_inverse?_iff {p : Array Nat} :
    (inverse? p).isSome ↔ p.toList.Perm (List.range p.size) := by
  constructor
  · intro h
    obtain ⟨label, hlabel⟩ := Option.isSome_iff_exists.1 h
    exact (isInverse_of_inverse? hlabel).perm_range
  · intro h
    obtain ⟨label, hlabel⟩ := exists_isInverse h
    rw [hlabel.inverse?_eq]
    rfl

/-! ## 2. Moving entries -/

section Extract

variable {α : Type} {x b : Array α} (p : Array Nat) {n : Nat}

/-- Gathering `n` entries reads no more than `n` positions. -/
theorem gather_extract (hx : x.size ≤ n) : gather x b (p.extract 0 n) = gather x b p := by
  have hmin : min x.size (p.extract 0 n).size = min x.size p.size := by
    rw [Array.size_extract]
    omega
  unfold gather
  rw [hmin]
  refine Checked.foldRange_congr (fun i _ hi y => ?_) x
  rw [Checked.entry_extract _ (by omega)]

/-- Scattering `n` entries reads no more than `n` positions. -/
theorem scatter_extract (hb : b.size ≤ n) : scatter x b (p.extract 0 n) = scatter x b p := by
  have hmin : min b.size (p.extract 0 n).size = min b.size p.size := by
    rw [Array.size_extract]
    omega
  unfold scatter
  rw [hmin]
  refine Checked.foldRange_congr (fun i _ hi y => ?_) x
  rw [Checked.entry_extract _ (by omega)]

end Extract

variable {α : Type} (d : α)

/-- **Gathering reads a vector through the permutation.** -/
theorem exists_gather {p : Array Nat} {x b : Array α} (hlt : ∀ i < p.size, p.getD i 0 < b.size)
    (hx : x.size = p.size) :
    ∃ y, gather x b p = .ok y ∧ y.size = p.size ∧
      ∀ i < p.size, y.getD i d = b.getD (p.getD i 0) d := by
  unfold gather
  rw [hx, Nat.min_self]
  refine Checked.exists_foldRange
    (fun k (y : Array α) => y.size = p.size ∧ ∀ i < k, y.getD i d = b.getD (p.getD i 0) d)
    _ 0 p.size x (Nat.zero_le _) ⟨hx, fun i hi => absurd hi (Nat.not_lt_zero i)⟩ ?_
  rintro i y - hi ⟨hsize, heq⟩
  have hiy : i < y.size := hsize ▸ hi
  refine ⟨y.set i (b.getD (p.getD i 0) d) hiy, ?_, by simpa using hsize, ?_⟩
  · rw [Checked.entry_eq _ _ 0 hi, Checked.ok_bind, Checked.entry_eq _ _ d (hlt i hi),
      Checked.ok_bind, Checked.store_of_lt _ _ _ hiy]
  · intro j hj
    rw [getD_set]
    by_cases hji : j = i
    · rw [if_pos hji, hji]
    · rw [if_neg hji]
      exact heq j (by omega)

/-- **Scattering reads a vector through the inverse.** -/
theorem exists_scatter {p label : Array Nat} (h : IsInverse p label) {x b : Array α}
    (hx : x.size = p.size) (hb : b.size = p.size) :
    ∃ y, scatter x b p = .ok y ∧ y.size = p.size ∧
      ∀ j < p.size, y.getD j d = b.getD (label.getD j 0) d := by
  unfold scatter
  rw [hb, Nat.min_self]
  obtain ⟨y, hrun, hsize, heq⟩ := Checked.exists_foldRange
    (fun k (y : Array α) => y.size = p.size ∧ ∀ i < k, y.getD (p.getD i 0) d = b.getD i d)
    (fun x i => do
      let v ← Checked.entry b i
      Checked.store x (← Checked.entry p i) v)
    0 p.size x (Nat.zero_le _) ⟨hx, fun i hi => absurd hi (Nat.not_lt_zero i)⟩
    (by
      rintro i y - hi ⟨hsize, heq⟩
      have hib : i < b.size := hb ▸ hi
      have hpy : p.getD i 0 < y.size := by
        rw [hsize]
        exact h.lt i hi
      refine ⟨y.set (p.getD i 0) (b.getD i d) hpy, ?_, by simpa using hsize, ?_⟩
      · rw [Checked.entry_eq _ _ d hib, Checked.ok_bind, Checked.entry_eq _ _ 0 hi,
          Checked.ok_bind, Checked.store_of_lt _ _ _ hpy]
      · intro j hj
        rw [getD_set]
        by_cases hji : j = i
        · rw [hji, if_pos rfl]
        · rw [if_neg fun hpij => hji (h.perm_inj (by omega) hi hpij)]
          exact heq j (by omega))
  refine ⟨y, hrun, hsize, fun j hj => ?_⟩
  rw [← heq _ (h.label_lt j hj), h.perm_label j hj]

end Permutation

end Quasidefinite

import Quasidefinite.Proofs.Permutation

/-!
# Orders, tested and followed

An order is tested by entering each of its positions in the slot that it points to, which has to
exist and to be free. That no slot is left over need not be tested: as many positions as there are
slots, each entered in a slot of its own, fill all of them (`Permutation.isSome_inverse?_eq`).

Gathering along an order and scattering along it undo each other, in either sequence
(`IsInverse.exists_gather_scatter`, `IsInverse.exists_scatter_gather`).
-/

namespace Quasidefinite

namespace Permutation

/-! ## 1. Slots that are taken -/

/-- The number of slots that are taken. -/
def taken (slots : Array (Option Nat)) : Nat := slots.toList.countP Option.isSome

/-- A position is entered in a slot that was free. -/
theorem taken_of_place {slots slots' : Array (Option Nat)} {e : Nat × Nat}
    (h : place slots e = some slots') :
    taken slots' = taken slots + 1 ∧ slots'.size = slots.size := by
  obtain ⟨j, i⟩ := e
  rw [place] at h
  split at h
  case isFalse => cases h
  case isTrue hfree =>
    obtain rfl := Option.some.inj h
    obtain ⟨hj, hnone⟩ := Array.getElem?_eq_some_iff.1 hfree
    refine ⟨?_, Array.size_setIfInBounds⟩
    have hcount := List.countP_set (p := Option.isSome) (l := slots.toList) (i := j) (a := some i)
      (by simpa using hj)
    rw [Array.getElem_toList, hnone] at hcount
    rw [taken, Array.toList_setIfInBounds, hcount]
    rfl

/-- **Every position that is entered takes one more slot.** -/
theorem taken_of_foldlM_place {pairs : List (Nat × Nat)} {slots slots' : Array (Option Nat)}
    (h : pairs.foldlM place slots = some slots') :
    taken slots' = taken slots + pairs.length ∧ slots'.size = slots.size := by
  induction pairs generalizing slots with
  | nil =>
    obtain rfl : slots = slots' := by simpa using h
    exact ⟨rfl, rfl⟩
  | cons e es ih =>
    rw [List.foldlM_cons] at h
    obtain ⟨mid, hmid, hrest⟩ := Option.bind_eq_some_iff.1 h
    obtain ⟨htaken, hsize⟩ := taken_of_place hmid
    obtain ⟨htaken', hsize'⟩ := ih hrest
    refine ⟨?_, hsize'.trans hsize⟩
    rw [htaken', htaken, List.length_cons]
    omega

/-- Slots of which none is free can be read out. -/
theorem exists_mapM_of_taken {slots : Array (Option Nat)} (h : taken slots = slots.size) :
    ∃ xs, slots.toList.mapM id = some xs := by
  rw [taken, ← Array.length_toList, List.countP_eq_length] at h
  generalize slots.toList = l at h
  induction l with
  | nil => exact ⟨[], rfl⟩
  | cons s ss ih =>
    obtain ⟨x, rfl⟩ := Option.isSome_iff_exists.1 (h s List.mem_cons_self)
    obtain ⟨xs, hxs⟩ := ih fun t ht => h t (List.mem_cons_of_mem _ ht)
    exact ⟨x :: xs, by rw [List.mapM_cons, hxs]; rfl⟩

/-- **The tests made while entering the positions decide alone**: once they pass, no slot is
    free. -/
theorem isSome_inverse?_eq (p : Array Nat) : (inverse? p).isSome =
    (p.toList.zipIdx.foldlM place (Array.replicate p.size none)).isSome := by
  unfold inverse?
  cases hslots : p.toList.zipIdx.foldlM place (Array.replicate p.size none) with
  | none => rfl
  | some slots =>
    obtain ⟨htaken, hsize⟩ := taken_of_foldlM_place hslots
    -- in the beginning no slot is taken, and there are as many positions as slots
    have hfull : taken slots = slots.size := by
      rw [htaken, hsize, List.length_zipIdx, Array.length_toList, Array.size_replicate, taken,
        Array.toList_replicate, List.countP_replicate]
      simp
    obtain ⟨xs, hxs⟩ := exists_mapM_of_taken hfull
    rw [Option.bind_eq_bind, Option.bind_some, hxs]
    rfl

/-! ## 2. There and back -/

namespace IsInverse

variable {p label : Array Nat} (h : IsInverse p label)

include h

/-- Each of two arrays that undo each other tells where a position stands in the other one. -/
theorem getElem?_eq_some_iff {i j : Nat} : p[i]? = some j ↔ label[j]? = some i := by
  constructor
  · intro hij
    obtain ⟨hi, rfl⟩ := Array.getElem?_eq_some_iff.1 hij
    rw [← getD_of_lt _ _ 0 hi, getElem?_eq_getD _ 0 (h.size_eq.symm ▸ h.lt i hi), h.label_perm i hi]
  · intro hji
    obtain ⟨hj, rfl⟩ := Array.getElem?_eq_some_iff.1 hji
    rw [← getD_of_lt _ _ 0 hj, getElem?_eq_getD _ 0 (h.label_lt j (h.size_eq ▸ hj)),
      h.perm_label j (h.size_eq ▸ hj)]

theorem exists_getElem? {i : Nat} (hi : i < p.size) :
    ∃ j, p[i]? = some j ∧ label[j]? = some i := by
  have hp := Array.getElem?_eq_getElem hi
  exact ⟨p[i], hp, h.getElem?_eq_some_iff.1 hp⟩

theorem exists_getElem?_label {j : Nat} (hj : j < p.size) :
    ∃ i, label[j]? = some i ∧ p[i]? = some j := by
  have hj : j < label.size := h.size_eq.symm ▸ hj
  have hlabel := Array.getElem?_eq_getElem hj
  exact ⟨label[j], hlabel, h.getElem?_eq_some_iff.2 hlabel⟩

variable {α : Type} {b x y : Array α} (hb : b.size = p.size) (hx : x.size = p.size)
  (hy : y.size = p.size)

include hb hx hy

/-- Scattering puts back what was gathered. -/
theorem exists_gather_scatter (d : α) : ∃ u, gather x b p = .ok u ∧
    (∀ i j : Nat, p[i]? = some j → u[i]? = b[j]?) ∧ scatter y u p = .ok b := by
  obtain ⟨u, hgather, hsize, hread⟩ := exists_gather d (b := b) (hb.symm ▸ h.lt) hx
  obtain ⟨z, hscatter, hsize', hread'⟩ := exists_scatter d h hy hsize
  refine ⟨u, hgather, fun i j hij => ?_, ?_⟩
  · obtain ⟨hi, rfl⟩ := Array.getElem?_eq_some_iff.1 hij
    rw [getElem?_eq_getD _ d (hsize.symm ▸ hi), hread i hi, getD_of_lt _ _ 0 hi,
      getElem?_eq_getD _ d]
    rw [hb, ← getD_of_lt _ _ 0 hi]
    exact h.lt i hi
  · obtain rfl : z = b := by
      refine ext_getD d (hsize'.trans hb.symm) fun j hj => ?_
      rw [hsize'] at hj
      rw [hread' j hj, hread _ (h.label_lt j hj), h.perm_label j hj]
    exact hscatter

/-- Gathering takes back what was scattered. -/
theorem exists_scatter_gather (d : α) : ∃ u, scatter x b p = .ok u ∧
    (∀ i j : Nat, p[i]? = some j → u[j]? = b[i]?) ∧ gather y u p = .ok b := by
  obtain ⟨u, hscatter, hsize, hread⟩ := exists_scatter d h hx hb
  obtain ⟨z, hgather, hsize', hread'⟩ := exists_gather d (b := u) (hsize.symm ▸ h.lt) hy
  refine ⟨u, hscatter, fun i j hij => ?_, ?_⟩
  · obtain ⟨hi, rfl⟩ := Array.getElem?_eq_some_iff.1 hij
    have hlt := h.lt i hi
    have hlabel := h.label_perm i hi
    rw [getD_of_lt _ _ 0 hi] at hlt hlabel
    rw [getElem?_eq_getD _ d (hsize.symm ▸ hlt), hread _ hlt, hlabel,
      getElem?_eq_getD _ d (hb.symm ▸ hi)]
  · obtain rfl : z = b := by
      refine ext_getD d (hsize'.trans hb.symm) fun i hi => ?_
      rw [hsize'] at hi
      rw [hread' i hi, hread _ (h.lt i hi), h.label_perm i hi]
    exact hgather

end IsInverse

/-- **The test of orders is exact, and orders can be undone.** An array passes if and only if it
    lists each of its own positions once, and the tests made while entering its positions decide
    that alone. The inverse then undoes it on both sides. A vector of that length that is gathered
    along the order comes back by scattering it along the order, and the other way round, whatever
    was in the vectors written over. -/
theorem inverse?_decides (p : Array Nat) :
    ((inverse? p).isSome ↔ p.toList.Perm (List.range p.size)) ∧
    (inverse? p).isSome = (p.toList.zipIdx.foldlM place (Array.replicate p.size none)).isSome ∧
    ∀ label, inverse? p = some label →
      label.size = p.size ∧
      (∀ i < p.size, ∃ j, p[i]? = some j ∧ label[j]? = some i) ∧
      (∀ j < p.size, ∃ i, label[j]? = some i ∧ p[i]? = some j) ∧
      ∀ {α : Type} (b x y : Array α), b.size = p.size → x.size = p.size → y.size = p.size →
        (∃ u, gather x b p = .ok u ∧ (∀ i j : Nat, p[i]? = some j → u[i]? = b[j]?) ∧
          scatter y u p = .ok b) ∧
        ∃ u, scatter x b p = .ok u ∧ (∀ i j : Nat, p[i]? = some j → u[j]? = b[i]?) ∧
          gather y u p = .ok b := by
  refine ⟨isSome_inverse?_iff, isSome_inverse?_eq p, fun label hlabel => ?_⟩
  have h := isInverse_of_inverse? hlabel
  refine ⟨h.size_eq, fun i hi => h.exists_getElem? hi, fun j hj => h.exists_getElem?_label hj,
    fun {α} b x y hb hx hy => ?_⟩
  rcases Nat.eq_zero_or_pos b.size with hempty | hpos
  · -- without positions there is nothing to move, and no entry to stand in for a missing one
    obtain rfl := Array.eq_empty_of_size_eq_zero hempty
    obtain rfl := Array.eq_empty_of_size_eq_zero hb.symm
    obtain rfl := Array.eq_empty_of_size_eq_zero hx
    obtain rfl := Array.eq_empty_of_size_eq_zero hy
    exact ⟨⟨#[], rfl, nofun, rfl⟩, #[], rfl, nofun, rfl⟩
  · exact ⟨h.exists_gather_scatter hb hx hy b[0], h.exists_scatter_gather hb hx hy b[0]⟩

/-- An order of four positions passes the test, and moves a vector there and back. -/
theorem inverse?_decides_four : inverse? #[3, 0, 2, 1] = some #[1, 3, 2, 0] ∧
    gather #[0, 0, 0, 0] #[10, 20, 30, 40] #[3, 0, 2, 1] = .ok #[40, 10, 30, 20] ∧
    scatter #[7, 7, 7, 7] #[40, 10, 30, 20] #[3, 0, 2, 1] = .ok #[10, 20, 30, 40] ∧
    (inverse? #[1, 1]).isSome = false ∧ (inverse? #[2, 0]).isSome = false := by
  have hlabel : inverse? #[3, 0, 2, 1] = some #[1, 3, 2, 0] := by decide +kernel
  obtain ⟨-, -, hinverse⟩ := inverse?_decides #[3, 0, 2, 1]
  obtain ⟨-, -, -, hmove⟩ := hinverse _ hlabel
  obtain ⟨⟨u, hgather, -, hscatter⟩, -⟩ :=
    hmove #[10, 20, 30, 40] #[0, 0, 0, 0] #[7, 7, 7, 7] rfl rfl rfl
  have hu : gather #[0, 0, 0, 0] #[10, 20, 30, 40] #[3, 0, 2, 1] = .ok #[40, 10, 30, 20] := by
    decide +kernel
  obtain rfl : #[40, 10, 30, 20] = u := Except.ok.inj (hu.symm.trans hgather)
  refine ⟨hlabel, hu, hscatter, ?_, ?_⟩
  · rw [← Bool.not_eq_true, (inverse?_decides #[1, 1]).1]
    decide
  · rw [← Bool.not_eq_true, (inverse?_decides #[2, 0]).1]
    decide

end Permutation

end Quasidefinite

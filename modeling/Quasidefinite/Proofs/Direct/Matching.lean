import Quasidefinite.Direct.System
import Quasidefinite.Proofs.Kkt.Assembly
import Quasidefinite.Proofs.Reflexive

/-!
# The data of a system and its recognition

`DirectSystem.Data` collects what construction knows of its data: both matrices are well formed,
their dimensions fit, and `U` is the upper triangle that is assembled. A system compares other data
with what its matrix was assembled from value by value, in the order in which they are stored, and
looks at no positions (`Data.exists_dataMatches`). It therefore recognizes the data itself
(`Data.dataMatches_eq`), whatever its dual regularizer, provided that comparison is reflexive where
that is relied on (`ReflexiveScalar`).
-/

namespace Quasidefinite

namespace DirectSystem

variable {α : Type} [Scalar α]

/-! ## 1. The data -/

/-- The data of a system: a matrix of constraints, and a quadratic term with its upper triangle. -/
structure Data (A P U : Sparse α) : Prop where
  constraint : A.WellFormed
  quadratic : P.WellFormed
  rows_eq : P.rows = A.cols
  cols_eq : P.cols = A.cols
  upperOf_eq : upperOf P = .ok U

/-- Well-formed data of fitting dimensions has an upper triangle. -/
theorem exists_data {A P : Sparse α} (hA : A.WellFormed) (hP : P.WellFormed)
    (hrows : P.rows = A.cols) (hcols : P.cols = A.cols) : ∃ U, Data A P U := by
  obtain ⟨b, hb, -⟩ := hP.toShaped.exists_isUpper
  cases b with
  | true => exact ⟨P, hA, hP, hrows, hcols, by rw [upperOf, hb]; rfl⟩
  | false =>
    refine ⟨P.upperPart, hA, hP, hrows, hcols, ?_⟩
    unfold upperOf
    rw [hb]
    exact hP.toShaped.upper_eq (hrows.trans hcols.symm)

namespace Data

variable {A P U : Sparse α} (h : Data A P U)

include h

/-- The two forms in which the quadratic term is stored. -/
theorem cases_upper : (U = P ∧ P.Upper) ∨ U = P.upperPart := by
  obtain ⟨b, hb, hiff⟩ := h.quadratic.toShaped.exists_isUpper
  have hupper := h.upperOf_eq
  unfold upperOf at hupper
  rw [hb, Checked.ok_bind] at hupper
  cases b with
  | true => exact .inl ⟨(Except.ok.inj hupper).symm, hiff.1 rfl⟩
  | false =>
    rw [if_neg Bool.false_ne_true,
      h.quadratic.toShaped.upper_eq (h.rows_eq.trans h.cols_eq.symm)] at hupper
    exact .inr (Except.ok.inj hupper).symm

theorem blocks : Kkt.Blocks U A := by
  rcases h.cases_upper with ⟨rfl, hupper⟩ | rfl
  · exact ⟨h.quadratic, hupper, h.rows_eq, h.cols_eq, h.constraint⟩
  · exact ⟨h.quadratic.upperPart, P.upper_upperPart, by rw [Sparse.rows_upperPart, h.cols_eq],
      by rw [Sparse.cols_upperPart, h.cols_eq], h.constraint⟩

/-- The upper triangle holds the entries of `P` that do not lie below the diagonal. -/
theorem entries_eq {j : Nat} (hj : j < A.cols) : U.entries j = P.upperEntries j := by
  rcases h.cases_upper with ⟨rfl, hupper⟩ | rfl
  · exact (hupper.upperEntries_eq (h.cols_eq ▸ hj)).symm
  · exact Sparse.entries_upperPart P (h.cols_eq ▸ hj)

end Data

/-! ## 2. Values and places -/

/-- The value that an entry of column `col` of the quadratic term stands for in the whole
    system. -/
def shifted (primal : α) (col : Nat) (e : Nat × α) : α := if e.1 = col then e.2 + primal else e.2

/-- The values of the quadratic term that go into the whole system, in the order in which they are
    stored: none from below the diagonal. -/
def upperValues (primal : α) (P : Sparse α) : List α :=
  (List.range P.cols).flatMap fun j => (P.upperEntries j).map (shifted primal j)

/-- Takes a place for every value and answers the places left over, or `none` as soon as a place is
    lacking or holds another value. -/
def consume (K : Sparse α) : List α → List Nat → Option (List Nat)
  | [], places => some places
  | _ :: _, [] => none
  | v :: vs, place :: places => if K.val place == v then consume K vs places else none

variable {K : Sparse α}

theorem consume_append (vs ws : List α) (places : List Nat) :
    consume K (vs ++ ws) places = (consume K vs places).bind (consume K ws) := by
  induction vs generalizing places with
  | nil => rfl
  | cons v vs ih =>
    cases places with
    | nil => rfl
    | cons place places =>
      rw [List.cons_append, consume, consume]
      split
      · exact ih places
      · rfl

/-- Places are taken from the front. -/
theorem consume_suffix {vs : List α} {places rest : List Nat}
    (h : consume K vs places = some rest) : rest <:+ places := by
  induction vs generalizing places with
  | nil =>
    cases h
    exact List.suffix_refl _
  | cons v vs ih =>
    cases places with
    | nil => cases h
    | cons place places =>
      rw [consume] at h
      split at h
      · exact (ih h).trans (List.suffix_cons place places)
      · cases h

/-- All places are taken if and only if they hold the values, one by one. -/
theorem consume_eq_nil {vs : List α} {places : List Nat} :
    consume K vs places = some [] ↔ Agree (places.map K.val) vs := by
  rw [Agree, List.forall₂_map_left_iff]
  induction vs generalizing places with
  | nil => simp [consume]
  | cons v vs ih =>
    cases places with
    | nil => simp [consume]
    | cons place places =>
      rw [consume, List.forall₂_cons]
      split
      case isTrue hv => rw [ih, and_iff_right hv]
      case isFalse hv => simp [hv]

/-! ## 3. The comparison -/

section Comparison

variable (s : DirectSystem α) {P : Sparse α}

theorem constraintMatches_eq (A : Sparse α) {pairs : List (α × Nat)}
    (h : ∀ e ∈ pairs, e.2 < s.kkt.matrix.value.size) :
    s.constraintMatches A pairs = .ok (pairs.all fun e => s.kkt.matrix.val e.2 == e.1) := by
  induction pairs with
  | nil => rfl
  | cons e pairs ih =>
    unfold constraintMatches
    rw [Checked.entry_eq _ _ 0 (h e List.mem_cons_self), Checked.ok_bind, List.all_cons,
      ih fun e' he' => h e' (List.mem_cons_of_mem e he')]
    show (if s.kkt.matrix.val e.2 == e.1 then _ else _) = _
    cases s.kkt.matrix.val e.2 == e.1 <;> rfl

/-- The entries of a column that do not lie below the diagonal take their places. -/
theorem matchEntries_eq (hP : P.Shaped) (col count k : Nat) (hk : k + count ≤ P.rowIndex.size)
    {places : List Nat} (hplaces : ∀ place ∈ places, place < s.kkt.matrix.value.size) :
    s.matchEntries P col count k places = .ok (consume s.kkt.matrix
      (((slots P.rowIndex P.value k count).filter fun e => e.1 ≤ col).map (shifted s.primal col))
      places) := by
  induction count generalizing k places with
  | zero => rfl
  | succ count ih =>
    have hlt : k < P.rowIndex.size := by omega
    have hslots : slots P.rowIndex P.value k (count + 1) =
        (P.row k, P.val k) :: slots P.rowIndex P.value (k + 1) count := by
      unfold slots
      rw [List.range'_succ, List.map_cons]
      rfl
    unfold matchEntries
    rw [hslots, List.filter_cons, Sparse.entry_rowIndex hlt, Checked.ok_bind]
    by_cases hrow : P.row k ≤ col
    · rw [if_neg (Nat.not_lt.2 hrow), if_pos (decide_eq_true hrow), List.map_cons,
        hP.entry_value hlt, Checked.ok_bind]
      cases places with
      | nil => rfl
      | cons place places =>
        have hrest := ih (k + 1) (by omega) fun p hp => hplaces p (List.mem_cons_of_mem place hp)
        dsimp only
        rw [consume, Checked.entry_eq _ _ 0 (hplaces place List.mem_cons_self), Checked.ok_bind,
          hrest]
        show (if s.kkt.matrix.val place == shifted s.primal col (P.row k, P.val k)
          then _ else _) = _
        split <;> rfl
    · rw [if_pos (Nat.lt_of_not_le hrow), if_neg (by simpa using hrow)]
      exact ih (k + 1) (by omega) hplaces

/-- The columns from one on take their places. -/
theorem matchColumns_eq (hP : P.Shaped) (count col : Nat) (hcount : col + count ≤ P.cols)
    {places : List Nat} (hplaces : ∀ place ∈ places, place < s.kkt.matrix.value.size) :
    s.matchColumns P count col places = .ok (consume s.kkt.matrix
      ((List.range' col count).flatMap fun j => (P.upperEntries j).map (shifted s.primal j))
      places) := by
  induction count generalizing col places with
  | zero => rfl
  | succ count ih =>
    have hlt : col < P.cols := by omega
    have hstart := hP.start_le_succ col hlt
    have hend := hP.start_le_size (j := col + 1) hlt
    unfold matchColumns
    rw [hP.entry_colStart (Nat.le_of_lt hlt), Checked.ok_bind,
      hP.entry_colStart (j := col + 1) hlt, Checked.ok_bind,
      s.matchEntries_eq hP col _ _ (by omega) hplaces, Checked.ok_bind,
      ← Sparse.entries_eq_slots, List.range'_succ, List.flatMap_cons, consume_append,
      Sparse.upperEntries]
    cases hconsume : consume s.kkt.matrix
        (((P.entries col).filter fun e => e.1 ≤ col).map (shifted s.primal col)) places with
    | none => rfl
    | some rest =>
      have hrest := (consume_suffix hconsume).subset
      exact ih (col + 1) (by omega) fun place hplace => hplaces place (hrest hplace)

end Comparison

/-! ## 4. Recognition -/

namespace Data

variable {A P U : Sparse α} (h : Data A P U) {s : DirectSystem α} {d : Nat → α}
  (hK : Kkt.Assembled U A (fun v => v + s.primal) d s.kkt)

include h hK

/-- The places of the constraint matrix hold its values. -/
theorem map_val_constraint :
    s.kkt.places.constraint.toList.map s.kkt.matrix.val = A.value.toList := by
  rw [toList_eq_map _ 0, toList_eq_map A.value 0, List.map_map, hK.size_constraint,
    h.constraint.size_value]
  refine List.map_congr_left fun p hp => ?_
  have hp := List.mem_range.1 hp
  obtain ⟨-, -, -, hval⟩ := hK.at_placeIn (Kkt.getElem?_constraint U A hp)
  have hne : A.colOf p ≠ A.row p + A.cols := by
    have := h.constraint.colOf_lt hp
    omega
  unfold Kkt.regularized at hval
  rw [if_neg hne] at hval
  rw [Function.comp_apply, hK.constraint_eq p hp, hval]
  rfl

/-- The places of the quadratic term hold the values that it hands to the whole system. -/
theorem map_val_quadratic :
    s.kkt.places.quadratic.toList.map s.kkt.matrix.val = upperValues s.primal P := by
  have hU := h.blocks.quadratic.toShaped
  have hcols := h.blocks.cols_eq
  have hpositions := hU.flatMap_positions (Nat.le_refl _)
  rw [hU.start_cols] at hpositions
  rw [toList_eq_map _ 0, List.map_map, hK.size_quadratic, ← hpositions, List.map_flatMap,
    upperValues, hcols, h.cols_eq]
  refine List.flatMap_congr fun j hj => ?_
  have hj := List.mem_range.1 hj
  rw [← h.entries_eq hj, Sparse.entries, List.map_map]
  refine List.map_congr_left fun p hp => ?_
  have hpU := hU.lt_size_of_mem (hcols ▸ hj) hp
  obtain ⟨-, -, -, hval⟩ := hK.at_placeIn (Kkt.getElem?_quadratic U A hpU)
  have hcol := hU.colOf_eq (hcols ▸ hj) hp
  unfold Kkt.regularized at hval
  rw [if_pos (h.blocks.colOf_lt hpU)] at hval
  rw [Function.comp_apply, Function.comp_apply, hK.quadratic_eq p hpU, hval, hcol]
  rfl

/-- **Data is compared value by value**, in the order in which it is stored: all of the constraint
    matrix, and the quadratic term as far as it goes into the whole system. -/
theorem exists_dataMatches {B Q : Sparse α} (hB : B.value.size = A.value.size) (hQ : Q.Shaped) :
    ∃ b, s.dataMatches B Q = .ok b ∧ (b = true ↔ Agree A.value.toList B.value.toList ∧
      Agree (upperValues s.primal P) (upperValues s.primal Q)) := by
  have hsize := hK.layout.shaped.size_value
  have hconstraint : ∀ place ∈ s.kkt.places.constraint.toList,
      place < s.kkt.matrix.value.size := by
    intro place hplace
    rw [toList_eq_map _ 0, hK.size_constraint] at hplace
    obtain ⟨p, hp, rfl⟩ := List.mem_map.1 hplace
    have hp := List.mem_range.1 hp
    rw [hsize, hK.constraint_eq p hp]
    exact (hK.at_placeIn (Kkt.getElem?_constraint U A hp)).1
  have hquadratic : ∀ place ∈ s.kkt.places.quadratic.toList,
      place < s.kkt.matrix.value.size := by
    intro place hplace
    rw [toList_eq_map _ 0, hK.size_quadratic] at hplace
    obtain ⟨p, hp, rfl⟩ := List.mem_map.1 hplace
    have hp := List.mem_range.1 hp
    rw [hsize, hK.quadratic_eq p hp]
    exact (hK.at_placeIn (Kkt.getElem?_quadratic U A hp)).1
  have hlength : B.value.toList.length = s.kkt.places.constraint.toList.length := by
    rw [Array.length_toList, Array.length_toList, hK.size_constraint, hB, h.constraint.size_value]
  have hall : ((B.value.toList.zip s.kkt.places.constraint.toList).all fun e =>
      s.kkt.matrix.val e.2 == e.1) = true ↔ Agree A.value.toList B.value.toList := by
    rw [← h.map_val_constraint hK, Agree, List.forall₂_map_left_iff, List.all_eq_true]
    refine ⟨fun hpairs => .flip (List.forall₂_iff_zip.2 ⟨hlength, hpairs _⟩), fun hpairs e he => ?_⟩
    exact (List.forall₂_iff_zip.1 hpairs.flip).2 he
  unfold dataMatches
  rw [constraintMatches_eq s B fun e he => hconstraint _ (List.of_mem_zip he).2, Checked.ok_bind,
    matchColumns_eq s hQ Q.cols 0 (Nat.le_of_eq (Nat.zero_add _)) hquadratic, Checked.ok_bind,
    ← hall, ← h.map_val_quadratic hK, ← consume_eq_nil, ← List.range_eq_range', upperValues]
  split
  case isTrue hpairs => exact ⟨_, rfl, by simp [hpairs]⟩
  case isFalse hpairs => exact ⟨false, rfl, by simp [hpairs]⟩

/-- **A system recognizes the data it was assembled from.** -/
theorem dataMatches_eq [ReflexiveScalar α] (hprimal : Scalar.isFinite s.primal = true) :
    s.dataMatches A P = .ok true := by
  obtain ⟨b, hb, hiff⟩ := h.exists_dataMatches hK rfl h.quadratic.toShaped
  rw [hb, hiff.2]
  refine ⟨agree_self fun v hv => ?_, agree_self fun v hv => ?_⟩
  · exact ReflexiveScalar.beq_self (h.constraint.isFinite_of_mem_value hv)
  · obtain ⟨j, hj, hv⟩ := List.mem_flatMap.1 hv
    obtain ⟨e, he, rfl⟩ := List.mem_map.1 hv
    have hfinite :=
      h.quadratic.isFinite_of_mem_entries (List.mem_range.1 hj) (List.mem_filter.1 he).1
    unfold shifted
    split
    · exact ReflexiveScalar.beq_add_self hfinite hprimal
    · exact ReflexiveScalar.beq_self hfinite

end Data

end DirectSystem

end Quasidefinite

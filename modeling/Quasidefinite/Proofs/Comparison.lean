import Mathlib
import Quasidefinite.Proofs.Overflow
import Quasidefinite.Vec

/-!
# Comparison of computed values

Values that are numbers are ordered, infinities included; a value that is not a number is neither
below nor above any other. `OrderedScalar` asks for this, and `AbsorbingScalar` asks that no sum,
product or absolute value is finite unless what it was made of is. Exact arithmetic, double and
single precision satisfy both.

A machine number stands for an unpacked value of its format, and computing with machine numbers is
computing with these values and rounding. `MachineScalar` says so once for double and single
precision. Where an unpacked number stands among the others is told by its sign, its exponent and
its mantissa, in this order (`Machine.rank`), because no two mantissas with leading zeros have
different exponents.

The largest entry of a vector is a number only if all entries are, and bounds them all
(`Vec.le_normInf`).
-/

namespace Quasidefinite

/-- Values that are numbers are ordered, and others do not compare. -/
class OrderedScalar (α : Type) [Scalar α] : Prop where
  isNaN_zero : Scalar.isNaN (0 : α) = false
  isNaN_of_isFinite {x : α} : Scalar.isFinite x = true → Scalar.isNaN x = false
  le_of_not_lt {x y : α} : Scalar.isNaN x = false → Scalar.isNaN y = false → ¬ x < y → y ≤ x
  not_lt_of_lt {x y : α} : x < y → ¬ y < x
  lt_of_lt_of_le {x y z : α} : x < y → y ≤ z → x < z
  le_trans {x y z : α} : x ≤ y → y ≤ z → x ≤ z

/-- What is not finite stays so. -/
class AbsorbingScalar (α : Type) [Scalar α] : Prop where
  isFinite_of_add {x y : α} : Scalar.isFinite (x + y) = true →
    Scalar.isFinite x = true ∧ Scalar.isFinite y = true
  isFinite_of_mul {x y : α} : Scalar.isFinite (x * y) = true →
    Scalar.isFinite x = true ∧ Scalar.isFinite y = true
  isFinite_of_abs_le {x y : α} : Scalar.abs x ≤ y → Scalar.isFinite y = true →
    Scalar.isFinite x = true

section Exact

open scoped Scalar

variable {K : Type} [Field K] [LinearOrder K] [SquareRoot K]

instance : OrderedScalar K where
  isNaN_zero := rfl
  isNaN_of_isFinite _ := rfl
  le_of_not_lt _ _ h := not_lt.1 h
  not_lt_of_lt h := h.not_gt
  lt_of_lt_of_le h h' := h.trans_le h'
  le_trans h h' := h.trans h'

instance : AbsorbingScalar K where
  isFinite_of_add _ := ⟨rfl, rfl⟩
  isFinite_of_mul _ := ⟨rfl, rfl⟩
  isFinite_of_abs_le _ _ := rfl

end Exact

/-! ## 1. The order of unpacked numbers -/

namespace Machine

open Float.Model Float.Model.UnpackedFloat

/-- Where a number stands among all others. -/
def rank : UnpackedFloat → ℤ ×ₗ ℤ ×ₗ ℤ
  | .infinity .negative => toLex (-2, toLex (0, 0))
  | .finite .negative m e _ => toLex (-1, toLex (-e, -m))
  | .notANumber => toLex (0, toLex (0, 0))
  | .zero _ => toLex (0, toLex (0, 0))
  | .finite .positive m e _ => toLex (1, toLex (e, m))
  | .infinity .positive => toLex (2, toLex (0, 0))

/-- Numbers compare as their places do. -/
theorem compare_eq {f g : UnpackedFloat} (hf : f.isNaN = false) (hg : g.isNaN = false) :
    f.compare g = some (compare (rank f) (rank g)) := by
  cases f with
  | notANumber => cases hf
  | infinity s =>
    cases g with
    | notANumber => cases hg
    | infinity t => cases s <;> cases t <;> rfl
    | zero t => cases s <;> rfl
    | finite t k d hk => cases s <;> cases t <;> rfl
  | zero s =>
    cases g with
    | notANumber => cases hg
    | infinity t => cases t <;> rfl
    | zero t => rfl
    | finite t k d hk => cases t <;> rfl
  | finite s m e hm =>
    cases g with
    | notANumber => cases hg
    | infinity t => cases s <;> cases t <;> rfl
    | zero t => cases s <;> rfl
    | finite t k d hk =>
      have hcast : compare (m : ℤ) k = compare m k := by
        rw [← cmp_eq_compare, ← cmp_eq_compare]
        exact Nat.strictMono_cast.cmp_map_eq m k
      have hneg : ∀ x y : ℤ, compare (-x) (-y) = (compare x y).swap := fun x y => by
        have hanti : StrictAnti fun z : ℤ => -z := fun _ _ h => neg_lt_neg h
        rw [← cmp_eq_compare, ← cmp_eq_compare, cmp_swap]
        exact hanti.cmp_map_eq x y
      cases s <;> cases t <;> dsimp only [UnpackedFloat.compare, rank]
      · simp [Prod.Lex.compare_def, compareLex, compareOn, hneg, hcast, Ordering.swap_then]
      · rfl
      · rfl
      · simp [Prod.Lex.compare_def, compareLex, compareOn, hcast]

/-- What compares is a number. -/
theorem isNaN_of_compare {f g : UnpackedFloat} {o : Ordering} (h : f.compare g = some o) :
    f.isNaN = false ∧ g.isNaN = false := by
  cases f with
  | notANumber => cases h
  | infinity s => cases g <;> first | exact ⟨rfl, rfl⟩ | (cases s <;> cases h)
  | zero s => cases g <;> first | exact ⟨rfl, rfl⟩ | cases h
  | finite s m e hm => cases g <;> first | exact ⟨rfl, rfl⟩ | (cases s <;> cases h)

theorem lt_iff {f g : UnpackedFloat} :
    f.lt g = true ↔ f.isNaN = false ∧ g.isNaN = false ∧ rank f < rank g := by
  unfold UnpackedFloat.lt
  rw [beq_iff_eq]
  constructor
  · intro h
    obtain ⟨hf, hg⟩ := isNaN_of_compare h
    rw [compare_eq hf hg, Option.some.injEq, compare_lt_iff_lt] at h
    exact ⟨hf, hg, h⟩
  · rintro ⟨hf, hg, h⟩
    rw [compare_eq hf hg, compare_lt_iff_lt.2 h]

theorem le_iff {f g : UnpackedFloat} :
    f.le g = true ↔ f.isNaN = false ∧ g.isNaN = false ∧ rank f ≤ rank g := by
  unfold UnpackedFloat.le
  constructor
  · intro h
    cases hcompare : f.compare g with
    | none =>
      rw [hcompare] at h
      cases h
    | some o =>
      obtain ⟨hf, hg⟩ := isNaN_of_compare hcompare
      rw [compare_eq hf hg, Option.any_some, Ordering.isLE_iff_ne_gt] at h
      exact ⟨hf, hg, compare_le_iff_le.1 h⟩
  · rintro ⟨hf, hg, h⟩
    rw [compare_eq hf hg, Option.any_some]
    exact Ordering.isLE_iff_ne_gt.2 (compare_le_iff_le.2 h)

/-! ## 2. What stays infinite -/

variable (spec : Format) {f g : UnpackedFloat}

/-- What packing makes finite was finite. -/
theorem isFinite_of_unpack_pack
    (h : (UnpackedFloat.unpack spec (UnpackedFloat.pack spec f)).isFinite = true) :
    f.isFinite = true := by
  cases f with
  | notANumber =>
    rw [UnpackedFloat.pack, unpack_packedNaN] at h
    cases h
  | infinity s =>
    rw [UnpackedFloat.pack, unpack_packedInfinity] at h
    cases h
  | zero s => rfl
  | finite s m e hm => rfl

/-- A sum is finite only if both summands are. -/
theorem isFinite_of_add (h : (UnpackedFloat.add spec f g).isFinite = true) :
    f.isFinite = true ∧ g.isFinite = true := by
  cases f with
  | notANumber => cases h
  | infinity s =>
    cases g with
    | infinity t => cases s <;> cases t <;> cases h
    | _ => cases h
  | zero s =>
    cases g with
    | notANumber => cases h
    | infinity t => cases h
    | _ => exact ⟨rfl, rfl⟩
  | finite s m e hm =>
    cases g with
    | notANumber => cases h
    | infinity t => cases h
    | _ => exact ⟨rfl, rfl⟩

/-- A product is finite only if both factors are. -/
theorem isFinite_of_mul (h : (UnpackedFloat.mul spec f g).isFinite = true) :
    f.isFinite = true ∧ g.isFinite = true := by
  cases f with
  | notANumber => cases h
  | infinity s => cases g <;> cases h
  | zero s =>
    cases g with
    | notANumber => cases h
    | infinity t => cases h
    | _ => exact ⟨rfl, rfl⟩
  | finite s m e hm =>
    cases g with
    | notANumber => cases h
    | infinity t => cases h
    | _ => exact ⟨rfl, rfl⟩

/-- What is not finite has an absolute value above all finite ones. -/
theorem top_abs (h : f.isFinite = false) : Top f.abs := by
  cases f with
  | notANumber => exact .inr rfl
  | infinity s => exact .inl rfl
  | zero s => cases h
  | finite s m e hm => cases h

end Machine

/-! ## 3. Double and single precision -/

open Float.Model Float.Model.UnpackedFloat in
/-- The values are packed numbers of a binary format, and computing with them is computing with
    the unpacked numbers and packing the result. -/
class MachineScalar (α : Type) [Scalar α] where
  /-- The format. -/
  format : Format
  two_lt_exponentBits : 2 < format.exponentBits
  /-- The unpacked number. -/
  value : α → UnpackedFloat
  exists_bits (x : α) : ∃ b, value x = UnpackedFloat.unpack format b
  isFinite_eq (x : α) : Scalar.isFinite x = (value x).isFinite
  isNaN_eq (x : α) : Scalar.isNaN x = (value x).isNaN
  lt_iff (x y : α) : x < y ↔ (value x).lt (value y) = true
  le_iff (x y : α) : x ≤ y ↔ (value x).le (value y) = true
  value_zero : value 0 = .zero .positive
  value_one : value 1 = .finite .positive (2 ^ format.mantissaBitsWithoutImplicit)
    (-format.mantissaBitsWithoutImplicit) (Nat.two_pow_pos _)
  value_abs (x : α) : value (Scalar.abs x) =
    UnpackedFloat.unpack format (pack format (value x).abs)
  value_add (x y : α) : value (x + y) =
    UnpackedFloat.unpack format (pack format (add format (value x) (value y)))
  value_mul (x y : α) : value (x * y) =
    UnpackedFloat.unpack format (pack format (mul format (value x) (value y)))
  value_div (x y : α) : value (x / y) =
    UnpackedFloat.unpack format (pack format (div format (value x) (value y)))

open Float.Model

instance : MachineScalar Float where
  format := Format.binary64
  two_lt_exponentBits := by decide
  value x := x.toModel.unpack
  exists_bits x := ⟨_, rfl⟩
  isFinite_eq _ := rfl
  isNaN_eq _ := rfl
  lt_iff _ _ := ⟨of_decide_eq_true, decide_eq_true⟩
  le_iff _ _ := ⟨of_decide_eq_true, decide_eq_true⟩
  value_zero := rfl
  value_one := rfl
  value_abs _ := rfl
  value_add _ _ := rfl
  value_mul _ _ := rfl
  value_div _ _ := rfl

instance : MachineScalar Float32 where
  format := Format.binary32
  two_lt_exponentBits := by decide
  value x := x.toModel.unpack
  exists_bits x := ⟨_, rfl⟩
  isFinite_eq _ := rfl
  isNaN_eq _ := rfl
  lt_iff _ _ := ⟨of_decide_eq_true, decide_eq_true⟩
  le_iff _ _ := ⟨of_decide_eq_true, decide_eq_true⟩
  value_zero := rfl
  value_one := rfl
  value_abs _ := rfl
  value_add _ _ := rfl
  value_mul _ _ := rfl
  value_div _ _ := rfl

section Machine

variable {α : Type} [Scalar α] [MachineScalar α]

open MachineScalar

instance : OrderedScalar α where
  isNaN_zero := by
    rw [isNaN_eq, value_zero]
    rfl
  isNaN_of_isFinite {x} h := by
    rw [isFinite_eq] at h
    rw [isNaN_eq, Machine.isNaN_of_isFinite h]
  le_of_not_lt {x y} hx hy h := by
    rw [isNaN_eq] at hx hy
    rw [lt_iff, Machine.lt_iff] at h
    rw [le_iff, Machine.le_iff]
    exact ⟨hy, hx, not_lt.1 fun hlt => h ⟨hx, hy, hlt⟩⟩
  not_lt_of_lt {x y} h h' := by
    rw [lt_iff, Machine.lt_iff] at h h'
    exact h.2.2.not_gt h'.2.2
  lt_of_lt_of_le {x y z} h h' := by
    rw [lt_iff, Machine.lt_iff] at h ⊢
    rw [le_iff, Machine.le_iff] at h'
    exact ⟨h.1, h'.2.1, h.2.2.trans_le h'.2.2⟩
  le_trans {x y z} h h' := by
    rw [le_iff, Machine.le_iff] at h h' ⊢
    exact ⟨h.1, h'.2.1, h.2.2.trans h'.2.2⟩

/-- Machine numbers are strictly ordered, because those that are not numbers do not compare. -/
instance MachineScalar.isStrictOrder_lt : IsStrictOrder α (· < ·) where
  irrefl x h := by
    rw [lt_iff, Machine.lt_iff] at h
    exact lt_irrefl _ h.2.2
  trans x y z h h' := by
    rw [lt_iff, Machine.lt_iff] at h h' ⊢
    exact ⟨h.1, h'.2.1, h.2.2.trans h'.2.2⟩

instance : AbsorbingScalar α where
  isFinite_of_add {x y} h := by
    rw [isFinite_eq, value_add] at h
    rw [isFinite_eq, isFinite_eq]
    exact Machine.isFinite_of_add _ (Machine.isFinite_of_unpack_pack _ h)
  isFinite_of_mul {x y} h := by
    rw [isFinite_eq, value_mul] at h
    rw [isFinite_eq, isFinite_eq]
    exact Machine.isFinite_of_mul _ (Machine.isFinite_of_unpack_pack _ h)
  isFinite_of_abs_le {x y} h hy := by
    rw [isFinite_eq] at hy
    rw [le_iff, value_abs] at h
    rw [isFinite_eq]
    by_contra hx
    rw [Bool.not_eq_true] at hx
    rw [((Machine.top_abs hx).unpack_pack _).le hy] at h
    cases h

end Machine

/-! ## 4. Largest entries -/

section Largest

variable {α : Type} [Scalar α] [OrderedScalar α]

open OrderedScalar

/-- A value that is a number is not above itself. -/
theorem OrderedScalar.le_refl {x : α} (h : Scalar.isNaN x = false) : x ≤ x :=
  le_of_not_lt h h fun hlt => not_lt_of_lt hlt hlt

theorem OrderedScalar.le_of_lt {x y : α} (hx : Scalar.isNaN x = false)
    (hy : Scalar.isNaN y = false) (h : x < y) : x ≤ y := le_of_not_lt hy hx (not_lt_of_lt h)

/-- The larger of the value found so far and the absolute value of an entry. -/
def Vec.larger (largest xi : α) : α :=
  if Scalar.isNaN largest then largest
  else if Scalar.isNaN (Scalar.abs xi) then Scalar.abs xi
  else if largest < Scalar.abs xi then Scalar.abs xi else largest

/-- The larger value is a number only if both are, and bounds both. -/
theorem Vec.le_larger {largest xi : α} (h : Scalar.isNaN (larger largest xi) = false) :
    Scalar.isNaN largest = false ∧ largest ≤ larger largest xi ∧
      Scalar.abs xi ≤ larger largest xi := by
  unfold larger at h ⊢
  by_cases hlargest : Scalar.isNaN largest = true
  · rw [if_pos hlargest] at h
    exact absurd hlargest (by rw [h]; exact Bool.false_ne_true)
  rw [if_neg hlargest] at h ⊢
  by_cases hentry : Scalar.isNaN (Scalar.abs xi) = true
  · rw [if_pos hentry] at h
    exact absurd hentry (by rw [h]; exact Bool.false_ne_true)
  rw [if_neg hentry] at h ⊢
  rw [Bool.not_eq_true] at hlargest hentry
  refine ⟨hlargest, ?_⟩
  by_cases hlt : largest < Scalar.abs xi
  · rw [if_pos hlt]
    exact ⟨le_of_lt hlargest hentry hlt, le_refl hentry⟩
  · rw [if_neg hlt]
    exact ⟨le_refl hlargest, le_of_not_lt hlargest hentry hlt⟩

/-- **The largest entry bounds zero and all absolute values**, if it is a number. -/
theorem Vec.le_normInf {x : Array α} (h : Scalar.isNaN (normInf x) = false) :
    0 ≤ normInf x ∧ ∀ xi ∈ x, Scalar.abs xi ≤ normInf x := by
  -- whatever the fold starts from is bounded as well
  have hfold : ∀ (xs : List α) (start : α), Scalar.isNaN (xs.foldl larger start) = false →
      Scalar.isNaN start = false ∧ start ≤ xs.foldl larger start ∧
        ∀ xi ∈ xs, Scalar.abs xi ≤ xs.foldl larger start := by
    intro xs
    induction xs with
    | nil => exact fun start h => ⟨h, le_refl h, fun xi hxi => nomatch hxi⟩
    | cons xi xs ih =>
      intro start h
      rw [List.foldl_cons] at h ⊢
      obtain ⟨hlarger, hle, hentries⟩ := ih _ h
      obtain ⟨hstart, hstart_le, hentry_le⟩ := le_larger hlarger
      refine ⟨hstart, le_trans hstart_le hle, fun yi hyi => ?_⟩
      rcases List.mem_cons.1 hyi with rfl | hyi
      · exact le_trans hentry_le hle
      · exact hentries yi hyi
  have hnorm : normInf x = x.toList.foldl larger 0 := (Array.foldl_toList _).symm
  rw [hnorm] at h ⊢
  obtain ⟨-, hzero, hentries⟩ := hfold x.toList 0 h
  exact ⟨hzero, fun xi hxi => hentries xi (Array.mem_toList_iff.2 hxi)⟩

/-- A vector with a finite largest entry is finite. -/
theorem Vec.isFinite_of_normInf [AbsorbingScalar α] {x : Array α}
    (h : Scalar.isFinite (normInf x) = true) : ∀ xi ∈ x, Scalar.isFinite xi = true := fun xi hxi =>
  AbsorbingScalar.isFinite_of_abs_le ((le_normInf (isNaN_of_isFinite h)).2 xi hxi) h

end Largest

end Quasidefinite

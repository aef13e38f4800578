import Mathlib.Data.List.Forall2
import Quasidefinite.Proofs.Exact

/-!
# Equality of computed values

A value that is not a number differs from itself, so a test for equality of two computed values is
not a matter of course. `ReflexiveScalar` asks for what the solvers rely on: finite values, and sums
of two finite values, are equal to themselves. `SymmetricScalar` asks that it does not matter which
of two values comes first. Exact arithmetic, double and single precision all satisfy this; a sum
that overflows is infinite, and infinities are equal to themselves.

Data is compared value by value (`Agree`).
-/

namespace Quasidefinite

/-- Finite values, and sums of two of them, are equal to themselves. -/
class ReflexiveScalar (α : Type) [Scalar α] : Prop where
  beq_self {x : α} : Scalar.isFinite x = true → (x == x) = true
  beq_add_self {x y : α} : Scalar.isFinite x = true → Scalar.isFinite y = true →
    (x + y == x + y) = true

/-- Equality does not depend on the order of the values. -/
class SymmetricScalar (α : Type) [Scalar α] : Prop where
  beq_comm (x y : α) : (x == y) = (y == x)

section Exact

open scoped Scalar

variable {K : Type} [Field K] [LinearOrder K] [SquareRoot K]

instance : ReflexiveScalar K where
  beq_self _ := beq_self_eq_true _
  beq_add_self _ _ := beq_self_eq_true _

instance : SymmetricScalar K where
  beq_comm _ _ := BEq.comm

end Exact

/-! ## 1. Unpacked machine numbers -/

namespace Machine

open Float.Model Float.Model.UnpackedFloat

/-- Only a value that is not a number differs from itself. -/
theorem beq_self {f : UnpackedFloat} (h : f.isNaN = false) : f.beq f = true := by
  have hcompare : f.compare f = some .eq := by
    cases f with
    | notANumber => cases h
    | infinity s => cases s <;> rfl
    | zero s => rfl
    | finite s m e hm => cases s <;> dsimp only [UnpackedFloat.compare] <;> simp
  unfold UnpackedFloat.beq
  rw [hcompare]
  rfl

/-- Two values compare as equal in either order. -/
theorem compare_eq_symm {f g : UnpackedFloat} (h : f.compare g = some .eq) :
    g.compare f = some .eq := by
  cases f with
  | notANumber => cases h
  | infinity s =>
    cases g with
    | notANumber => cases s <;> cases h
    | infinity t => cases s <;> cases t <;> first | rfl | cases h
    | zero t => cases s <;> cases h
    | finite t k d hk => cases s <;> cases h
  | zero s =>
    cases g with
    | notANumber => cases h
    | infinity t => cases t <;> cases h
    | zero t => rfl
    | finite t k d hk => cases t <;> cases h
  | finite s m e hm =>
    cases g with
    | notANumber => cases s <;> cases h
    | infinity t => cases s <;> cases t <;> cases h
    | zero t => cases s <;> cases h
    | finite t k d hk =>
      -- values of one sign compare by exponent and mantissa
      have hsame : (compare e d).then (compare m k) = .eq →
          (compare d e).then (compare k m) = .eq := by
        simp only [Ordering.then_eq_eq, compare_eq_iff_eq]
        rintro ⟨rfl, rfl⟩
        exact ⟨rfl, rfl⟩
      cases s <;> cases t <;> dsimp only [UnpackedFloat.compare] at h ⊢ <;> simp_all

theorem beq_comm (f g : UnpackedFloat) : f.beq g = g.beq f := by
  unfold UnpackedFloat.beq
  rw [Bool.eq_iff_iff, beq_iff_eq, beq_iff_eq]
  exact ⟨compare_eq_symm, compare_eq_symm⟩

theorem isNaN_of_isFinite {f : UnpackedFloat} (h : f.isFinite = true) : f.isNaN = false := by
  cases f with
  | notANumber => cases h
  | infinity s => cases h
  | zero s => rfl
  | finite s m e hm => rfl

variable (spec : Format)

/-- The mantissa and the exponent after rounding. The rounded mantissa is shifted once more. -/
def rounded (m : Nat) (e : Int) (accuracy : Accuracy) : ExtendedMantissa × Int :=
  let shifted := shiftToTargetExponent spec m e accuracy
  shiftToTargetExponent spec shifted.1.roundedMantissa shifted.2 .exact

/-- Rounding gives a zero, or a finite value. -/
theorem cases_roundWithAccuracy (s : Sign) (m : Nat) (e : Int) (accuracy : Accuracy) :
    roundWithAccuracy spec s m e accuracy = .zero s ∨
      ∃ hm, roundWithAccuracy spec s m e accuracy =
        .finite s (rounded spec m e accuracy).1.mantissa (rounded spec m e accuracy).2 hm := by
  by_cases h : (rounded spec m e accuracy).1.mantissa = 0
  · exact .inl (dif_pos h)
  · exact .inr ⟨Nat.pos_of_ne_zero h, dif_neg h⟩

theorem isNaN_round (s : Sign) (m : Nat) (e : Int) :
    (UnpackedFloat.round spec s m e).isNaN = false := by
  unfold UnpackedFloat.round
  dsimp only
  rcases cases_roundWithAccuracy spec s _ _ .exact with h | ⟨hm, h⟩ <;> rw [h] <;> rfl

/-- The sum of two finite values is a number. -/
theorem isNaN_add {f g : UnpackedFloat} (hf : f.isFinite = true) (hg : g.isFinite = true) :
    (UnpackedFloat.add spec f g).isNaN = false := by
  cases f with
  | notANumber => cases hf
  | infinity s => cases hf
  | zero s =>
    cases g with
    | notANumber => cases hg
    | infinity t => cases hg
    | zero t => cases s <;> cases t <;> rfl
    | finite t m e hm => rfl
  | finite s m e hm =>
    cases g with
    | notANumber => cases hg
    | infinity t => cases hg
    | zero t => rfl
    | finite t k d hk =>
      unfold UnpackedFloat.add UnpackedFloat.normalize
      dsimp only
      split
      · exact isNaN_round spec _ _ _
      · rfl
      · exact isNaN_round spec _ _ _

/-- Bits with an exponent of ones stand for an infinity, or for no number. -/
theorem unpack_of_ones {b : BitVec spec.numBits} (h : unpackExponent b = -1#_) :
    UnpackedFloat.unpack spec b =
      if unpackMantissa b = 0#_ then .infinity (.ofBitVec (unpackSign b)) else .notANumber :=
  if_pos h

/-- Bits with another exponent stand for a zero, or for a finite value. -/
theorem cases_unpack {b : BitVec spec.numBits} (h : unpackExponent b ≠ -1#_) :
    UnpackedFloat.unpack spec b = .zero (.ofBitVec (unpackSign b)) ∨
      (unpackExponent b = 0#_ ∧ ∃ hm, UnpackedFloat.unpack spec b =
        .finite (.ofBitVec (unpackSign b)) (unpackMantissa b).toNat
          ((unpackExponent b).toNat - (spec.exponentBias + spec.mantissaBitsWithoutImplicit) + 1)
          hm) ∨
      (unpackExponent b ≠ 0#_ ∧ ∃ hm, UnpackedFloat.unpack spec b =
        .finite (.ofBitVec (unpackSign b)) (1#1 ++ unpackMantissa b).toNat
          ((unpackExponent b).toNat - (spec.exponentBias + spec.mantissaBitsWithoutImplicit))
          hm) := by
  by_cases hexponent : unpackExponent b = 0#_
  · by_cases hmantissa : unpackMantissa b = 0#_
    · exact .inl ((if_neg h).trans ((if_pos hexponent).trans (dif_pos hmantissa)))
    · exact .inr (.inl ⟨hexponent, _, (if_neg h).trans ((if_pos hexponent).trans
        (dif_neg hmantissa))⟩)
  · exact .inr (.inr ⟨hexponent, _, (if_neg h).trans (if_neg hexponent)⟩)

theorem isNaN_unpack_packComponents (s : Sign) {exponent : BitVec spec.exponentBits}
    {mantissa : BitVec spec.mantissaBitsWithoutImplicit} (h : exponent = -1#_ → mantissa = 0#_) :
    (UnpackedFloat.unpack spec (packComponents spec s exponent mantissa)).isNaN = false := by
  by_cases hexponent : exponent = -1#_
  · rw [unpack_of_ones spec (by rwa [unpackExponent_packComponents]),
      if_pos (by rw [unpackMantissa_packComponents, h hexponent])]
    rfl
  · have hones : unpackExponent (packComponents spec s exponent mantissa) ≠ -1#_ := by
      rwa [unpackExponent_packComponents]
    rcases cases_unpack spec hones with hb | ⟨-, _, hb⟩ | ⟨-, _, hb⟩ <;> rw [hb] <;> rfl

/-- Exponents below the largest one are not all ones. -/
theorem ofNat_ne_neg_one {k : Nat} (hk : k + 1 < 2 ^ spec.exponentBits) :
    BitVec.ofNat spec.exponentBits k ≠ -1#_ := by
  intro heq
  have hnat := congrArg BitVec.toNat heq
  rw [BitVec.toNat_ofNat, Nat.mod_eq_of_lt (by omega), BitVec.neg_one_eq_allOnes,
    BitVec.toNat_allOnes] at hnat
  omega

theorem zero_ne_neg_one : (0#_ : BitVec spec.exponentBits) ≠ -1#_ :=
  ofNat_ne_neg_one spec (Nat.lt_of_lt_of_le Nat.one_lt_two
    (Nat.le_self_pow (Nat.pos_iff_ne_zero.1 spec.he) 2))

/-- A number is packed as a number. -/
theorem isNaN_unpack_pack {f : UnpackedFloat} (h : f.isNaN = false) :
    (UnpackedFloat.unpack spec (UnpackedFloat.pack spec f)).isNaN = false := by
  cases f with
  | notANumber => cases h
  | infinity s => exact isNaN_unpack_packComponents spec s fun _ => rfl
  | zero s => exact isNaN_unpack_packComponents spec s fun _ => rfl
  | finite s m e hm =>
    unfold UnpackedFloat.pack
    dsimp only
    split
    · exact isNaN_unpack_packComponents spec s fun _ => rfl
    · rename_i hexponent
      split
      · exact isNaN_unpack_packComponents spec s fun heq =>
          absurd heq (ofNat_ne_neg_one spec (Nat.not_le.1 hexponent))
      · exact isNaN_unpack_packComponents spec s fun heq => absurd heq (zero_ne_neg_one spec)

/-- The sum of two finite values, packed, is equal to itself. -/
theorem beq_pack_add {f g : UnpackedFloat} (hf : f.isFinite = true) (hg : g.isFinite = true) :
    (UnpackedFloat.unpack spec (UnpackedFloat.pack spec (UnpackedFloat.add spec f g))).beq
      (UnpackedFloat.unpack spec (UnpackedFloat.pack spec (UnpackedFloat.add spec f g))) = true :=
  beq_self (isNaN_unpack_pack spec (isNaN_add spec hf hg))

end Machine

/-! ## 2. Double and single precision -/

instance : ReflexiveScalar Float where
  beq_self h := Machine.beq_self (Machine.isNaN_of_isFinite h)
  beq_add_self hx hy := Machine.beq_pack_add Float.Model.Format.binary64 hx hy

instance : SymmetricScalar Float where
  beq_comm _ _ := Machine.beq_comm _ _

instance : SymmetricScalar Float32 where
  beq_comm _ _ := Machine.beq_comm _ _

instance : ReflexiveScalar Float32 where
  beq_self h := Machine.beq_self (Machine.isNaN_of_isFinite h)
  beq_add_self hx hy := Machine.beq_pack_add Float.Model.Format.binary32 hx hy

/-! ## 3. Values one by one -/

section Agree

variable {α : Type} [Scalar α] {vs ws : List α}

/-- The values of two lists are equal, one by one. -/
def Agree (vs ws : List α) : Prop := List.Forall₂ (fun v w => (v == w) = true) vs ws

theorem agree_comm [SymmetricScalar α] : Agree vs ws ↔ Agree ws vs := by
  have hsymm : ∀ {vs ws : List α}, Agree vs ws → Agree ws vs := fun h => List.Forall₂.flip
    (List.Forall₂.imp (fun v w hvw => (SymmetricScalar.beq_comm w v).trans hvw) h)
  exact ⟨hsymm, hsymm⟩

theorem agree_self (h : ∀ v ∈ vs, (v == v) = true) : Agree vs vs := List.forall₂_same.2 h

theorem agree_map {β : Type} {f g : β → α} {xs : List β} :
    Agree (xs.map f) (xs.map g) ↔ ∀ x ∈ xs, (f x == g x) = true := by
  rw [Agree, List.forall₂_map_left_iff, List.forall₂_map_right_iff, List.forall₂_same]

/-- Arrays are equal if and only if their values are, one by one. -/
theorem beq_iff_agree {xs ys : Array α} : (xs == ys) = true ↔ Agree xs.toList ys.toList := by
  rw [← Array.beq_toList]
  generalize xs.toList = vs
  generalize ys.toList = ws
  induction vs generalizing ws with
  | nil => cases ws <;> simp [Agree]
  | cons v vs ih =>
    cases ws with
    | nil => simp [Agree]
    | cons w ws => rw [List.cons_beq_cons, Bool.and_eq_true, ih, Agree, Agree, List.forall₂_cons]

end Agree

end Quasidefinite

import Quasidefinite.Proofs.Reflexive

/-!
# Values that overflow

The sum of a finite value and a positive one can be too large for the number type. It is then above
all values, or not a number, and stays so: no subtraction brings it back (`Overflown`).
`OverflowScalar` asks for this. In exact arithmetic nothing overflows; double and single precision
satisfy it because of how they round. A sum that is negative lies between zero and its negative
term, so that it is rounded to an exponent no larger than that of the term (`bounded_round`); only
a positive sum can overflow, and it does so upwards.

A square root is infinite only if its argument is, and never negative, so that it is finite if a
finite value bounds it from above. That is all `RootScalar` asks for.
-/

namespace Quasidefinite

/-- The value is above all others or not a number. -/
def Overflown {α : Type} [Scalar α] (x : α) : Prop :=
  Scalar.isFinite x = false ∧ ∀ t : α, ¬ x < t

/-- Finite values overflow upwards when a positive value is added, and for good. -/
class OverflowScalar (α : Type) [Scalar α] : Prop extends ReflexiveScalar α where
  isFinite_zero : Scalar.isFinite (0 : α) = true
  isFinite_neg {x : α} : Scalar.isFinite x = true → Scalar.isFinite (-x) = true
  finite_or_overflown {x y : α} : Scalar.isFinite x = true → Scalar.isPositiveFinite y = true →
    Scalar.isFinite (x + y) = true ∨ Overflown (x + y)
  overflown_sub {x : α} (y : α) : Overflown x → Overflown (x - y)
  overflown_mul_one {x : α} : Overflown x → Overflown (x * 1)

/-- A square root that a finite value bounds from above is finite. -/
class RootScalar (α : Type) [Scalar α] : Prop where
  isFinite_sqrt {x y : α} : Scalar.sqrt x ≤ y → Scalar.isFinite y = true →
    Scalar.isFinite (Scalar.sqrt x) = true

section Exact

open scoped Scalar

variable {K : Type} [Field K] [LinearOrder K] [SquareRoot K]

instance : RootScalar K where
  isFinite_sqrt _ _ := rfl

instance : OverflowScalar K where
  isFinite_zero := rfl
  isFinite_neg _ := rfl
  finite_or_overflown _ _ := .inl rfl
  overflown_sub _ h := nomatch h.1
  overflown_mul_one h := nomatch h.1

end Exact

/-! ## 1. Rounding -/

namespace Machine

open Float.Model Float.Model.UnpackedFloat

variable (spec : Format)

/-- The least mantissa without residual bits that is not below the given one. -/
def ceiling (em : ExtendedMantissa) : Nat :=
  em.mantissa + (em.roundBit || em.stickyBit).toNat

/-- Rounding goes no further than to the next mantissa. -/
theorem roundedMantissa_le (em : ExtendedMantissa) : em.roundedMantissa ≤ ceiling em := by
  obtain ⟨m, round, sticky⟩ := em
  cases round <;> cases sticky <;>
    simp only [ExtendedMantissa.roundedMantissa, ExtendedMantissa.accuracy,
      Accuracy.roundToNearestEven, ceiling, Bool.or_false, Bool.or_true, Bool.toNat_false,
      Bool.toNat_true] <;> omega

theorem ceiling_shiftRightOne_le {em : ExtendedMantissa} {m : Nat} (h : ceiling em ≤ 2 * m) :
    ceiling em.shiftRightOne ≤ m := by
  obtain ⟨k, round, sticky⟩ := em
  unfold ceiling ExtendedMantissa.shiftRightOne at *
  dsimp only at *
  cases hbits : (round || sticky) with
  | false =>
    rw [hbits, Bool.toNat_false] at h
    rcases Nat.mod_two_eq_zero_or_one k with hk | hk <;> simp [hk] <;> omega
  | true =>
    rw [hbits, Bool.toNat_true] at h
    simp only [Bool.or_true, Bool.toNat_true]
    omega

/-- What lies below a mantissa does so after a shift. -/
theorem ceiling_shiftRight_le {em : ExtendedMantissa} {n m : Nat} (h : ceiling em ≤ m * 2 ^ n) :
    ceiling (em >>> n) ≤ m := by
  change ceiling (n.repeat ExtendedMantissa.shiftRightOne em) ≤ m
  induction n generalizing m with
  | zero => exact h.trans_eq (Nat.mul_one m)
  | succ n ih =>
    refine ceiling_shiftRightOne_le (ih ?_)
    rwa [Nat.mul_comm 2 m, Nat.mul_assoc, ← Nat.pow_succ']

/-- The value is zero, or finite with an exponent of at most `E`. -/
def Bounded (E : Int) : UnpackedFloat → Prop
  | .zero _ => True
  | .finite _ _ e _ => e ≤ E
  | _ => False

/-- A mantissa below `2 ^ (spec.mantissaBits + (E - e))` has a target exponent of at most `E`. -/
theorem targetExponent_le {E e : Int} (hE : spec.minExponent ≤ E) {m : Nat} (he : e ≤ E)
    (hm : m < 2 ^ (spec.mantissaBits + (E - e).toNat)) :
    spec.targetExponent (totalExponent m e) ≤ E := by
  have hlog : m.log2 < spec.mantissaBits + (E - e).toNat := by
    by_cases hzero : m = 0
    · rw [hzero]
      show 0 < _
      unfold Format.mantissaBits
      omega
    · exact (Nat.log2_lt hzero).2 hm
  unfold Format.targetExponent totalExponent
  omega

/-- **What is not above a number of the format is rounded to an exponent no larger than its.** -/
theorem bounded_roundWithAccuracy {E e : Int} (hE : spec.minExponent ≤ E) (s : Sign) {m k : Nat}
    {accuracy : Accuracy} (hm : m < 2 ^ spec.mantissaBits) (he : e ≤ E)
    (hk : ceiling (.ofMantissaAndAccuracy k accuracy) ≤ m * 2 ^ (E - e).toNat) :
    Bounded E (roundWithAccuracy spec s k e accuracy) := by
  have hbits : ∀ n, m * 2 ^ n < 2 ^ (spec.mantissaBits + n) := fun n => by
    rw [Nat.pow_add]
    exact Nat.mul_lt_mul_of_pos_right hm (Nat.two_pow_pos n)
  have hceiling : k ≤ ceiling (.ofMantissaAndAccuracy k accuracy) := by
    rcases accuracy with _ | _ | _ | _ <;> exact Nat.le_add_right _ _
  -- the first shift
  obtain ⟨t, ht⟩ : ∃ t, t = spec.targetExponent (totalExponent k e) := ⟨_, rfl⟩
  have htE : t ≤ E :=
    ht ▸ targetExponent_le spec hE he ((hceiling.trans hk).trans_lt (hbits _))
  have hshift : (E - e).toNat = (E - (e + (t - e).toNat)).toNat + (t - e).toNat := by omega
  rw [hshift, Nat.pow_add, ← Nat.mul_assoc] at hk
  -- rounding does not reach beyond the number
  have hrounded := ((roundedMantissa_le _).trans (ceiling_shiftRight_le hk)).trans_lt (hbits _)
  have htarget := targetExponent_le spec hE (by omega) hrounded
  rcases cases_roundWithAccuracy spec s k e accuracy with h | ⟨_, h⟩
  · rw [h]
    trivial
  · rw [h]
    show (rounded spec k e accuracy).2 ≤ E
    unfold rounded shiftToTargetExponent shiftToExponent
    simp only [← ht]
    omega

theorem bounded_round {E e : Int} (hE : spec.minExponent ≤ E) (s : Sign) {m k : Nat}
    (hm : m < 2 ^ spec.mantissaBits) (he : e ≤ E) (hk : k < m * 2 ^ (E - e).toNat) :
    Bounded E (UnpackedFloat.round spec s k e) := by
  unfold UnpackedFloat.round decreaseExponent
  generalize spec.targetExponent (totalExponent k e) = t
  have hshift : (E - (e - (e - t).toNat)).toNat = (E - e).toNat + (e - t).toNat := by omega
  refine bounded_roundWithAccuracy spec hE s hm (by omega) ?_
  change _ + 0 ≤ _
  rw [hshift, Nat.pow_add, ← Nat.mul_assoc, Nat.shiftLeft_eq]
  exact Nat.mul_le_mul_right _ (Nat.le_of_lt hk)

/-! ## 2. Packing -/

theorem isFinite_unpack_packComponents (s : Sign) {exponent : BitVec spec.exponentBits}
    (mantissa : BitVec spec.mantissaBitsWithoutImplicit) (h : exponent ≠ -1#_) :
    (UnpackedFloat.unpack spec (packComponents spec s exponent mantissa)).isFinite = true := by
  have hones : unpackExponent (packComponents spec s exponent mantissa) ≠ -1#_ := by
    rwa [unpackExponent_packComponents]
  rcases cases_unpack spec hones with hb | ⟨-, _, hb⟩ | ⟨-, _, hb⟩ <;> rw [hb] <;> rfl

theorem unpackSign_packComponents (s : Sign) (exponent : BitVec spec.exponentBits)
    (mantissa : BitVec spec.mantissaBitsWithoutImplicit) :
    unpackSign (packComponents spec s exponent mantissa) = s.toBitVec := by
  ext i hi
  unfold unpackSign
  simp [packComponents, BitVec.getLsbD_append]
  obtain rfl : i = 0 := by omega
  simp

theorem unpack_packedInfinity (s : Sign) :
    UnpackedFloat.unpack spec (packedInfinity spec s) = .infinity s := by
  refine (unpack_of_ones spec (unpackExponent_packComponents ..)).trans ?_
  refine (if_pos (unpackMantissa_packComponents ..)).trans ?_
  rw [unpackSign_packComponents]
  cases s <;> rfl

theorem unpack_packedNaN : UnpackedFloat.unpack spec (packedNaN spec) = .notANumber := by
  have hm := spec.hm
  have hbit : (1#_ <<< (spec.mantissaBitsWithoutImplicit - 1) :
      BitVec spec.mantissaBitsWithoutImplicit) ≠ 0#_ := by
    intro hzero
    have hnat := congrArg BitVec.toNat hzero
    have hpos := Nat.two_pow_pos (spec.mantissaBitsWithoutImplicit - 1)
    have hlt : 2 ^ (spec.mantissaBitsWithoutImplicit - 1) < 2 ^ spec.mantissaBitsWithoutImplicit :=
      Nat.pow_lt_pow_right (by decide) (by omega)
    rw [BitVec.toNat_shiftLeft, BitVec.toNat_ofNat, BitVec.toNat_ofNat, Nat.zero_mod,
      Nat.mod_eq_of_lt (Nat.one_lt_two_pow (by omega)), Nat.one_shiftLeft,
      Nat.mod_eq_of_lt hlt] at hnat
    omega
  refine (unpack_of_ones spec (unpackExponent_packComponents ..)).trans (if_neg ?_)
  rwa [unpackMantissa_packComponents]

/-- The largest exponent of the format is at least `E`. -/
def Reaches (E : Int) : Prop :=
  (E + spec.exponentBias + spec.mantissaBitsWithoutImplicit).toNat + 1 < 2 ^ spec.exponentBits

/-- **What has an exponent of the format is packed as a finite value.** -/
theorem isFinite_unpack_pack {E : Int} (hE : Reaches spec E) {f : UnpackedFloat}
    (hf : Bounded E f) :
    (UnpackedFloat.unpack spec (UnpackedFloat.pack spec f)).isFinite = true := by
  cases f with
  | notANumber => cases hf
  | infinity s => cases hf
  | zero s => exact isFinite_unpack_packComponents spec s _ (zero_ne_neg_one spec)
  | finite s m e hm =>
    have he : e ≤ E := hf
    unfold Reaches at hE
    unfold UnpackedFloat.pack
    dsimp only
    split
    · omega
    · rename_i hexponent
      split
      · exact isFinite_unpack_packComponents spec s _
          (ofNat_ne_neg_one spec (Nat.not_le.1 hexponent))
      · exact isFinite_unpack_packComponents spec s _ (zero_ne_neg_one spec)

/-- The least exponent is one above what a biased exponent of zero stands for. -/
theorem minExponent_eq (hbits : 1 < spec.exponentBits) :
    spec.minExponent = 1 - (spec.exponentBias + spec.mantissaBitsWithoutImplicit : Int) := by
  have htwo : 2 ≤ 2 ^ (spec.exponentBits - 1) := Nat.le_self_pow (by omega) 2
  have hcast : (2 : Int) ^ (spec.exponentBits - 1) = (2 ^ (spec.exponentBits - 1) : Nat) := by
    rw [Int.natCast_pow]
    rfl
  unfold Format.minExponent Format.exponentBias Format.mantissaBits
  rw [hcast]
  omega

/-- **A finite value that was packed has a mantissa and an exponent of the format.** -/
theorem unpack_eq_finite (hbits : 1 < spec.exponentBits) {b : BitVec spec.numBits} {s : Sign}
    {m : Nat} {e : Int} {hm : 0 < m} (h : UnpackedFloat.unpack spec b = .finite s m e hm) :
    m < 2 ^ spec.mantissaBits ∧ spec.minExponent ≤ e ∧ Reaches spec e := by
  have hpow : 2 ^ (spec.exponentBits - 1) + 2 ^ (spec.exponentBits - 1) =
      2 ^ spec.exponentBits := by
    rw [← Nat.two_mul, ← Nat.pow_succ', Nat.succ_eq_add_one, Nat.sub_add_cancel spec.he]
  have htwo : 2 ≤ 2 ^ (spec.exponentBits - 1) := Nat.le_self_pow (by omega) 2
  rw [minExponent_eq spec hbits]
  unfold Reaches Format.exponentBias Format.mantissaBits
  have hones : unpackExponent b ≠ -1#_ := fun hones => by
    rw [unpack_of_ones spec hones] at h
    by_cases hzero : unpackMantissa b = 0#_
    · rw [if_pos hzero] at h
      cases h
    · rw [if_neg hzero] at h
      cases h
  have hlt : (unpackExponent b).toNat + 1 < 2 ^ spec.exponentBits := by
    have hle := (unpackExponent b).isLt
    refine Nat.lt_of_le_of_ne hle fun heq => hones ?_
    rw [BitVec.neg_one_eq_allOnes, ← BitVec.toNat_inj, BitVec.toNat_allOnes]
    omega
  have hmantissa := (unpackMantissa b).isLt
  rcases cases_unpack spec hones with hb | ⟨hzero, _, hb⟩ | ⟨hzero, _, hb⟩
  · cases hb.symm.trans h
  · cases hb.symm.trans h
    rw [hzero, BitVec.toNat_ofNat, Nat.zero_mod]
    have hle : 2 ^ spec.mantissaBitsWithoutImplicit ≤
        2 ^ (1 + spec.mantissaBitsWithoutImplicit) :=
      Nat.pow_le_pow_right (by decide) (by omega)
    unfold Format.exponentBias
    omega
  · have hpos : (unpackExponent b).toNat ≠ 0 := fun heq => hzero (by
      rw [← BitVec.toNat_inj, heq, BitVec.toNat_ofNat, Nat.zero_mod])
    cases hb.symm.trans h
    refine ⟨BitVec.isLt _, ?_⟩
    unfold Format.exponentBias
    omega

/-! ## 3. Values above all others -/

/-- A finite value is a zero, or has a mantissa and an exponent. -/
theorem cases_isFinite {f : UnpackedFloat} (h : f.isFinite = true) :
    (∃ s, f = .zero s) ∨ ∃ s m e hm, f = .finite s m e hm := by
  cases f with
  | notANumber => cases h
  | infinity s => cases h
  | zero s => exact .inl ⟨s, rfl⟩
  | finite s m e hm => exact .inr ⟨s, m, e, hm, rfl⟩

/-- Positive infinity, or not a number. -/
def Top (f : UnpackedFloat) : Prop := f = .infinity .positive ∨ f = .notANumber

section Top

variable {f : UnpackedFloat}

theorem Top.isFinite (h : Top f) : f.isFinite = false := by
  rcases h with rfl | rfl <;> rfl

theorem Top.lt (h : Top f) (g : UnpackedFloat) : f.lt g = false := by
  rcases h with rfl | rfl
  · cases g with
    | infinity s => cases s <;> rfl
    | _ => rfl
  · cases g <;> rfl

theorem Top.le (h : Top f) {g : UnpackedFloat} (hg : g.isFinite = true) : f.le g = false := by
  rcases h with rfl | rfl
  · rcases cases_isFinite hg with ⟨s, rfl⟩ | ⟨s, m, e, hm, rfl⟩ <;> rfl
  · cases g <;> rfl

theorem top_of_isFinite (hfinite : f.isFinite = false) (hlt : f.lt (.zero .positive) = false) :
    Top f := by
  cases f with
  | notANumber => exact .inr rfl
  | infinity s =>
    cases s with
    | positive => exact .inl rfl
    | negative => cases hlt
  | zero s => cases hfinite
  | finite s m e hm => cases hfinite

theorem Top.unpack_pack (h : Top f) :
    Top (UnpackedFloat.unpack spec (UnpackedFloat.pack spec f)) := by
  rcases h with rfl | rfl
  · exact .inl (unpack_packedInfinity spec _)
  · exact .inr (unpack_packedNaN spec)

theorem Top.sub (h : Top f) (g : UnpackedFloat) : Top (UnpackedFloat.sub spec f g) := by
  rcases h with rfl | rfl
  · cases g with
    | infinity s =>
      cases s with
      | positive => exact .inr rfl
      | negative => exact .inl rfl
    | notANumber => exact .inr rfl
    | zero s => exact .inl rfl
    | finite s m e hm => exact .inl rfl
  · exact .inr rfl

theorem Top.mul (h : Top f) (m : Nat) (e : Int) (hm : 0 < m) :
    Top (UnpackedFloat.mul spec f (.finite .positive m e hm)) := by
  rcases h with rfl | rfl
  · exact .inl rfl
  · exact .inr rfl

end Top

/-- The value that packing makes of `f` is finite, or above all others. -/
def FiniteOrTop (f : UnpackedFloat) : Prop :=
  (UnpackedFloat.unpack spec (UnpackedFloat.pack spec f)).isFinite = true ∨
    Top (UnpackedFloat.unpack spec (UnpackedFloat.pack spec f))

theorem finiteOrTop_zero (s : Sign) : FiniteOrTop spec (.zero s) :=
  .inl (isFinite_unpack_packComponents spec s _ (zero_ne_neg_one spec))

/-- Values of positive sign overflow upwards. -/
theorem finiteOrTop_finite {m : Nat} {e : Int} (hm : 0 < m) :
    FiniteOrTop spec (.finite .positive m e hm) := by
  by_cases he : Reaches spec e
  · exact .inl (isFinite_unpack_pack spec he (Int.le_refl e))
  · refine .inr (.inl ?_)
    unfold Reaches at he
    unfold UnpackedFloat.pack
    dsimp only
    rw [if_pos (by omega)]
    exact unpack_packedInfinity spec .positive

theorem finiteOrTop_roundWithAccuracy (m : Nat) (e : Int) (accuracy : Accuracy) :
    FiniteOrTop spec (roundWithAccuracy spec .positive m e accuracy) := by
  rcases cases_roundWithAccuracy spec .positive m e accuracy with h | ⟨_, h⟩
  · rw [h]
    exact finiteOrTop_zero spec .positive
  · rw [h]
    exact finiteOrTop_finite spec _

theorem finiteOrTop_round (m : Nat) (e : Int) :
    FiniteOrTop spec (UnpackedFloat.round spec .positive m e) :=
  finiteOrTop_roundWithAccuracy spec _ _ _

/-- **A square root is finite or overflows upwards.** -/
theorem finiteOrTop_sqrt (f : UnpackedFloat) : FiniteOrTop spec (UnpackedFloat.sqrt spec f) := by
  have hnan : FiniteOrTop spec .notANumber := .inr (Top.unpack_pack spec (.inr rfl))
  cases f with
  | notANumber => exact hnan
  | infinity s =>
    cases s with
    | positive => exact .inr (Top.unpack_pack spec (.inl rfl))
    | negative => exact hnan
  | zero s => exact finiteOrTop_zero spec s
  | finite s m e hm =>
    cases s with
    | positive => exact finiteOrTop_roundWithAccuracy spec _ _ _
    | negative => exact hnan

/-- What is finite or overflows upwards is finite below a finite value. -/
theorem FiniteOrTop.isFinite {f g : UnpackedFloat} (h : FiniteOrTop spec f)
    (hle : (UnpackedFloat.unpack spec (UnpackedFloat.pack spec f)).le g = true)
    (hg : g.isFinite = true) :
    (UnpackedFloat.unpack spec (UnpackedFloat.pack spec f)).isFinite = true := by
  rcases h with h | h
  · exact h
  · rw [h.le hg] at hle
    cases hle

/-- **A positive value added to a finite one gives a finite value, or the sum overflows
    upwards.** -/
theorem finiteOrTop_add (hbits : 1 < spec.exponentBits) {b : BitVec spec.numBits}
    (hb : (UnpackedFloat.unpack spec b).isFinite = true) {g : UnpackedFloat}
    (hg : g.isFinite = true) (hpos : (UnpackedFloat.zero .positive).lt g = true) :
    FiniteOrTop spec (UnpackedFloat.add spec (UnpackedFloat.unpack spec b) g) := by
  obtain ⟨k, d, hk, rfl⟩ : ∃ k d hk, g = .finite .positive k d hk := by
    rcases cases_isFinite hg with ⟨s, rfl⟩ | ⟨s, k, d, hk, rfl⟩
    · cases hpos
    · cases s with
      | positive => exact ⟨k, d, hk, rfl⟩
      | negative => cases hpos
  rcases cases_isFinite hb with ⟨s, hf⟩ | ⟨s, m, e, hm, hf⟩
  · rw [hf]
    exact finiteOrTop_finite spec hk
  · obtain ⟨hmantissa, hmin, hreaches⟩ := unpack_eq_finite spec hbits hf
    rw [hf]
    unfold UnpackedFloat.add UnpackedFloat.normalize decreaseExponent
    dsimp only
    split
    · -- the sum is negative, and above the negative term
      rename_i hcompare
      have hneg := Int.compare_eq_lt.1 hcompare
      have hscaled : 0 < k * 2 ^ (d - min e d).toNat := Nat.mul_pos hk (Nat.two_pow_pos _)
      refine .inl (isFinite_unpack_pack spec hreaches
        (bounded_round spec hmin .negative hmantissa (Int.min_le_left e d) ?_))
      rw [Nat.shiftLeft_eq, Nat.shiftLeft_eq] at hneg ⊢
      cases s <;> simp only [Sign.apply] at hneg ⊢ <;> omega
    · exact finiteOrTop_zero spec .positive
    · exact finiteOrTop_round spec _ _

theorem isFinite_unpack_pack_neg (hbits : 1 < spec.exponentBits) {b : BitVec spec.numBits}
    (hb : (UnpackedFloat.unpack spec b).isFinite = true) :
    (UnpackedFloat.unpack spec (UnpackedFloat.pack spec
      (UnpackedFloat.unpack spec b).neg)).isFinite = true := by
  rcases cases_isFinite hb with ⟨s, hf⟩ | ⟨s, m, e, hm, hf⟩
  · rw [hf]
    exact isFinite_unpack_packComponents spec _ _ (zero_ne_neg_one spec)
  · have hreaches := (unpack_eq_finite spec hbits hf).2.2
    rw [hf]
    exact isFinite_unpack_pack spec hreaches (Int.le_refl e)

end Machine

/-! ## 4. Double and single precision -/

open Float.Model

/-- What overflows is positive infinity or not a number, once unpacked. -/
theorem overflown_iff_top {α : Type} [Scalar α] (unpack : α → UnpackedFloat)
    (hfinite : ∀ x, Scalar.isFinite x = (unpack x).isFinite)
    (hlt : ∀ x y, x < y ↔ (unpack x).lt (unpack y) = true)
    (hzero : unpack 0 = .zero .positive) {x : α} : Overflown x ↔ Machine.Top (unpack x) := by
  constructor
  · rintro ⟨hx, hbelow⟩
    refine Machine.top_of_isFinite (hfinite x ▸ hx) (Bool.eq_false_iff.2 fun h => hbelow 0 ?_)
    rwa [hlt, hzero]
  · intro h
    exact ⟨hfinite x ▸ h.isFinite,
      fun t ht => Bool.noConfusion ((h.lt _).symm.trans ((hlt x t).1 ht))⟩

theorem overflown_float {x : Float} : Overflown x ↔ Machine.Top x.toModel.unpack :=
  overflown_iff_top (fun x : Float => x.toModel.unpack) (fun _ => rfl)
    (fun _ _ => ⟨of_decide_eq_true, decide_eq_true⟩) rfl

theorem overflown_float32 {x : Float32} : Overflown x ↔ Machine.Top x.toModel.unpack :=
  overflown_iff_top (fun x : Float32 => x.toModel.unpack) (fun _ => rfl)
    (fun _ _ => ⟨of_decide_eq_true, decide_eq_true⟩) rfl

instance : RootScalar Float where
  isFinite_sqrt {x _} hle hy :=
    (Machine.finiteOrTop_sqrt Format.binary64 x.toModel.unpack).isFinite Format.binary64
      (of_decide_eq_true hle) hy

instance : RootScalar Float32 where
  isFinite_sqrt {x _} hle hy :=
    (Machine.finiteOrTop_sqrt Format.binary32 x.toModel.unpack).isFinite Format.binary32
      (of_decide_eq_true hle) hy

instance : OverflowScalar Float where
  isFinite_zero := rfl
  isFinite_neg h := Machine.isFinite_unpack_pack_neg Format.binary64 (by decide) h
  finite_or_overflown hx hy := by
    obtain ⟨hpos, hfinite⟩ := Bool.and_eq_true_iff.1 hy
    rw [overflown_float]
    exact Machine.finiteOrTop_add Format.binary64 (by decide) hx hfinite
      (of_decide_eq_true (of_decide_eq_true hpos))
  overflown_sub y h := overflown_float.2 <|
    ((overflown_float.1 h).sub Format.binary64 y.toModel.unpack).unpack_pack Format.binary64
  overflown_mul_one h := overflown_float.2 <|
    ((overflown_float.1 h).mul Format.binary64 _ _ (by decide)).unpack_pack Format.binary64

instance : OverflowScalar Float32 where
  isFinite_zero := rfl
  isFinite_neg h := Machine.isFinite_unpack_pack_neg Format.binary32 (by decide) h
  finite_or_overflown hx hy := by
    obtain ⟨hpos, hfinite⟩ := Bool.and_eq_true_iff.1 hy
    rw [overflown_float32]
    exact Machine.finiteOrTop_add Format.binary32 (by decide) hx hfinite
      (of_decide_eq_true (of_decide_eq_true hpos))
  overflown_sub y h := overflown_float32.2 <|
    ((overflown_float32.1 h).sub Format.binary32 y.toModel.unpack).unpack_pack Format.binary32
  overflown_mul_one h := overflown_float32.2 <|
    ((overflown_float32.1 h).mul Format.binary32 _ _ (by decide)).unpack_pack Format.binary32

end Quasidefinite

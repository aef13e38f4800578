import Quasidefinite.Proofs.Comparison

/-!
# Comparing values by their quotient

That one value is at least as large as another can be told from their quotient, although that is
rounded: the quotient of a value by a larger one is below one, and so close to zero that it is below
everything positive if the larger one is infinite (`QuotientScalar`). Double and single precision
satisfy this because no quotient of two numbers of a format is closer to one than the number of the
format that precedes one (`Machine.Canonical.bounded_div`).
-/

namespace Quasidefinite

/-- A quotient by a larger value is below one. -/
class QuotientScalar (α : Type) [Scalar α] : Prop extends OrderedScalar α where
  zero_lt_one : (0 : α) < 1
  div_lt_one {x y : α} : 0 ≤ x → x < y → x / y < 1
  div_lt_of_infinite {x y t : α} : Scalar.isFinite x = true → Scalar.isFinite y = false →
    Scalar.isNaN y = false → 0 < t → x / y < t

section Exact

open scoped Scalar

variable {K : Type} [Field K] [LinearOrder K] [IsStrictOrderedRing K] [SquareRoot K]

instance : QuotientScalar K where
  zero_lt_one := one_pos
  div_lt_one hx h := (div_lt_one (hx.trans_lt h)).2 h
  div_lt_of_infinite _ h := nomatch h

end Exact

/-! ## 1. Packing -/

namespace Machine

open Float.Model Float.Model.UnpackedFloat

variable (spec : Format)

/-- Packing does not raise an exponent above one of the format. -/
theorem bounded_unpack_pack (hbits : 1 < spec.exponentBits) {E : Int} (hE : spec.minExponent ≤ E)
    (hreaches : Reaches spec E) {f : UnpackedFloat} (hf : Bounded E f) :
    Bounded E (UnpackedFloat.unpack spec (UnpackedFloat.pack spec f)) := by
  rw [minExponent_eq spec hbits] at hE
  have hcomponents : ∀ (s : Sign) (k : Nat) (mantissa : BitVec spec.mantissaBitsWithoutImplicit),
      k + 1 < 2 ^ spec.exponentBits →
      (k : Int) - (spec.exponentBias + spec.mantissaBitsWithoutImplicit) ≤ E →
      Bounded E (UnpackedFloat.unpack spec
        (packComponents spec s (BitVec.ofNat spec.exponentBits k) mantissa)) := by
    intro s k mantissa hk hkE
    have hones : unpackExponent (packComponents spec s (BitVec.ofNat spec.exponentBits k)
        mantissa) ≠ -1#_ := by
      rw [unpackExponent_packComponents]
      exact ofNat_ne_neg_one spec hk
    rcases cases_unpack spec hones with h | ⟨hzero, _, h⟩ | ⟨-, _, h⟩ <;> rw [h]
    · trivial
    · show _ - _ + 1 ≤ E
      rw [hzero, BitVec.toNat_ofNat, Nat.zero_mod]
      omega
    · show _ - _ ≤ E
      rw [unpackExponent_packComponents, BitVec.toNat_ofNat, Nat.mod_eq_of_lt (by omega)]
      exact hkE
  have hone : 1 < 2 ^ spec.exponentBits := Nat.one_lt_two_pow (by omega)
  cases f with
  | notANumber => cases hf
  | infinity s => cases hf
  | zero s => exact hcomponents s 0 0 (by omega) (by omega)
  | finite s m e hm =>
    have he : e ≤ E := hf
    unfold Reaches at hreaches
    unfold UnpackedFloat.pack
    dsimp only
    split
    · omega
    · split
      · exact hcomponents s _ _ (by omega) (by omega)
      · exact hcomponents s 0 _ (by omega) (by omega)

theorem exists_unpack_zero (s : Sign) : ∃ t,
    UnpackedFloat.unpack spec (UnpackedFloat.pack spec (.zero s)) = .zero t := by
  have hexponent : unpackExponent (packedZero spec s) = 0#_ := unpackExponent_packComponents ..
  have hones : unpackExponent (packedZero spec s) ≠ -1#_ := by
    rw [hexponent]
    exact zero_ne_neg_one spec
  exact ⟨_, (if_neg hones).trans ((if_pos hexponent).trans
    (dif_pos (unpackMantissa_packComponents ..)))⟩

/-- **A finite value that was packed has no leading zeros**, unless its exponent is the least
    one. -/
theorem normal_of_unpack (hbits : 1 < spec.exponentBits) {b : BitVec spec.numBits} {s : Sign}
    {m : Nat} {e : Int} {hm : 0 < m} (h : UnpackedFloat.unpack spec b = .finite s m e hm) :
    e = spec.minExponent ∨ 2 ^ spec.mantissaBitsWithoutImplicit ≤ m := by
  have hones : unpackExponent b ≠ -1#_ := fun hones => by
    rw [unpack_of_ones spec hones] at h
    split at h <;> cases h
  rcases cases_unpack spec hones with hb | ⟨hzero, _, hb⟩ | ⟨-, _, hb⟩
  · cases hb.symm.trans h
  · cases hb.symm.trans h
    rw [minExponent_eq spec hbits, hzero, BitVec.toNat_ofNat, Nat.zero_mod]
    left
    omega
  · cases hb.symm.trans h
    right
    rw [BitVec.toNat_append, BitVec.toNat_ofNat, Nat.shiftLeft_eq, Nat.one_mod, Nat.one_mul]
    exact Nat.left_le_or

/-! ## 2. Quotients -/

/-- The ceiling of a quotient is below every number whose product reaches the dividend. -/
theorem ceiling_div_le {n d m : Nat} (hd : 0 < d) (h : n ≤ m * d) :
    ceiling (.ofMantissaAndAccuracy (n / d) (accuracyOfFraction (n % d) d)) ≤ m := by
  have hdiv := Nat.div_add_mod n d
  have hmod := Nat.mod_lt n hd
  by_cases hzero : n % d = 0
  · rw [accuracyOfFraction, if_pos hzero]
    exact Nat.div_le_of_le_mul (by rwa [Nat.mul_comm])
  · have hlt : n / d < m := by
      rw [Nat.div_lt_iff_lt_mul hd]
      refine Nat.lt_of_le_of_ne h fun heq => hzero ?_
      rw [heq, Nat.mul_mod_left]
    rw [accuracyOfFraction, if_neg hzero]
    cases compare (2 * (n % d)) d <;> exact hlt

/-- The mantissa and the exponent are those of a number that was packed. -/
structure Canonical (m : Nat) (e : Int) : Prop where
  lt : m < 2 ^ spec.mantissaBits
  le : spec.minExponent ≤ e
  normal : e = spec.minExponent ∨ 2 ^ spec.mantissaBitsWithoutImplicit ≤ m

variable {spec} {m₁ m₂ : Nat} {e₁ e₂ : Int}

/-- Of two numbers the smaller one has no larger leading digit. -/
theorem Canonical.totalExponent_le (h₁ : Canonical spec m₁ e₁) (h₂ : Canonical spec m₂ e₂)
    (hlt : e₁ < e₂ ∨ e₁ = e₂ ∧ m₁ < m₂) : totalExponent m₁ e₁ ≤ totalExponent m₂ e₂ := by
  unfold totalExponent
  rcases hlt with hlt | ⟨rfl, hlt⟩
  · -- an exponent above the least one comes with a leading digit
    have hnormal : 2 ^ spec.mantissaBitsWithoutImplicit ≤ m₂ :=
      h₂.normal.resolve_left fun heq => by have := h₁.le; omega
    have hpos := Nat.two_pow_pos spec.mantissaBitsWithoutImplicit
    have hlog₂ := (Nat.le_log2 (by omega)).2 hnormal
    have hlog₁ : m₁.log2 < spec.mantissaBits := by
      by_cases hzero : m₁ = 0
      · rw [hzero]
        show 0 < _
        unfold Format.mantissaBits
        omega
      · exact (Nat.log2_lt hzero).2 h₁.lt
    unfold Format.mantissaBits at hlog₁
    omega
  · have hlog : m₁.log2 ≤ m₂.log2 := by
      by_cases hzero : m₁ = 0
      · rw [hzero]
        exact Nat.zero_le _
      · exact (Nat.le_log2 (by omega)).2 ((Nat.log2_self_le hzero).trans hlt.le)
    omega

/-- The dividend, shifted left by `n` digits more than there are in a mantissa, is below the
    divisor times the largest mantissa, shifted left by `n`. -/
theorem Canonical.mul_le (h₁ : Canonical spec m₁ e₁) (h₂ : Canonical spec m₂ e₂)
    (hlt : e₁ < e₂ ∨ e₁ = e₂ ∧ m₁ < m₂) {n : Nat} {shift : Nat}
    (hshift : e₁ - e₂ + spec.mantissaBits + n = shift) :
    m₁ * 2 ^ shift ≤ (2 ^ spec.mantissaBits - 1) * 2 ^ n * m₂ := by
  have hm₁ : m₁ ≤ 2 ^ spec.mantissaBits - 1 := Nat.le_sub_one_of_lt h₁.lt
  rcases hlt with hlt | ⟨rfl, hlt⟩
  · have hnormal : 2 ^ spec.mantissaBitsWithoutImplicit ≤ m₂ :=
      h₂.normal.resolve_left fun heq => by have := h₁.le; omega
    have hle : shift ≤ n + spec.mantissaBitsWithoutImplicit := by
      unfold Format.mantissaBits at hshift
      omega
    calc m₁ * 2 ^ shift
        ≤ (2 ^ spec.mantissaBits - 1) * 2 ^ (n + spec.mantissaBitsWithoutImplicit) :=
          Nat.mul_le_mul hm₁ (Nat.pow_le_pow_right (by decide) hle)
      _ = (2 ^ spec.mantissaBits - 1) * 2 ^ n * 2 ^ spec.mantissaBitsWithoutImplicit := by
          rw [Nat.pow_add, Nat.mul_assoc]
      _ ≤ _ := Nat.mul_le_mul_left _ hnormal
  · obtain rfl : shift = spec.mantissaBits + n := by omega
    have hsucc : m₁ * 2 ^ spec.mantissaBits ≤ (2 ^ spec.mantissaBits - 1) * m₂ := by
      have hle : (m₁ + 1) * 2 ^ spec.mantissaBits ≤ m₂ * 2 ^ spec.mantissaBits :=
        Nat.mul_le_mul_right _ hlt
      have := h₂.lt
      rw [Nat.add_mul, Nat.one_mul] at hle
      rw [Nat.sub_mul, Nat.one_mul, Nat.mul_comm (2 ^ _) m₂]
      omega
    calc m₁ * 2 ^ (spec.mantissaBits + n)
        = m₁ * 2 ^ spec.mantissaBits * 2 ^ n := by rw [Nat.pow_add, Nat.mul_assoc]
      _ ≤ (2 ^ spec.mantissaBits - 1) * m₂ * 2 ^ n := Nat.mul_le_mul_right _ hsucc
      _ = _ := Nat.mul_right_comm _ _ _

/-- **The quotient of a number by a larger one is rounded to less than one.** -/
theorem Canonical.bounded_div (h₁ : Canonical spec m₁ e₁) (h₂ : Canonical spec m₂ e₂)
    (hE : spec.minExponent ≤ -spec.mantissaBits) (hlt : e₁ < e₂ ∨ e₁ = e₂ ∧ m₁ < m₂)
    (s₁ s₂ : Sign) (hm₁ : 0 < m₁) (hm₂ : 0 < m₂) :
    Bounded (-spec.mantissaBits)
      (UnpackedFloat.div spec (.finite s₁ m₁ e₁ hm₁) (.finite s₂ m₂ e₂ hm₂)) := by
  have htotal := h₁.totalExponent_le h₂ hlt
  unfold UnpackedFloat.div divCore
  dsimp only
  generalize ht :
    min (e₁ - e₂) (spec.targetExponent (totalExponent m₁ e₁ - totalExponent m₂ e₂)) = t
  have htarget : spec.targetExponent (totalExponent m₁ e₁ - totalExponent m₂ e₂) ≤
      -spec.mantissaBits := by
    unfold Format.targetExponent
    omega
  have hm : 2 ^ spec.mantissaBits - 1 < 2 ^ spec.mantissaBits :=
    Nat.sub_lt (Nat.two_pow_pos _) Nat.one_pos
  -- the mantissa of the quotient is at most the largest one, so rounding does not carry
  refine bounded_roundWithAccuracy spec hE _ hm (by omega) (ceiling_div_le hm₂ ?_)
  rw [Nat.shiftLeft_eq]
  exact h₁.mul_le h₂ hlt (by omega)

/-- The same of values that may be zero or infinite. -/
theorem bounded_div {f g : UnpackedFloat} (hE : spec.minExponent ≤ -spec.mantissaBits)
    (hf : ∀ s m e hm, f = .finite s m e hm → Canonical spec m e)
    (hg : ∀ s m e hm, g = .finite s m e hm → Canonical spec m e)
    (hpos : (UnpackedFloat.zero .positive).le f = true) (hlt : f.lt g = true) :
    Bounded (-spec.mantissaBits) (UnpackedFloat.div spec f g) := by
  cases f with
  | notANumber => cases hpos
  | infinity s =>
    cases s with
    | negative => cases hpos
    | positive =>
      rw [Top.lt (.inl rfl) g] at hlt
      cases hlt
  | zero s =>
    cases g with
    | notANumber => cases hlt
    | infinity t => trivial
    | zero t => cases hlt
    | finite t k d hk => trivial
  | finite s m e hm =>
    cases s with
    | negative => cases hpos
    | positive =>
      cases g with
      | notANumber => cases hlt
      | infinity t => trivial
      | zero t => cases hlt
      | finite t k d hk =>
        cases t with
        | negative => cases hlt
        | positive =>
          have hrank := (lt_iff.1 hlt).2.2
          simp only [rank, Prod.Lex.toLex_lt_toLex, lt_irrefl, true_and, false_or,
            Nat.cast_lt] at hrank
          exact (hf _ _ _ _ rfl).bounded_div (hg _ _ _ _ rfl) hE hrank _ _ hm hk

/-- Numbers with an exponent below that of one are below one. -/
theorem Bounded.lt_one {f : UnpackedFloat} (h : Bounded (-spec.mantissaBits) f) :
    f.lt (.finite .positive (2 ^ spec.mantissaBitsWithoutImplicit)
      (-spec.mantissaBitsWithoutImplicit) (Nat.two_pow_pos _)) = true := by
  cases f with
  | notANumber => cases h
  | infinity s => cases h
  | zero s => rfl
  | finite s m e hm =>
    cases s with
    | negative => rfl
    | positive =>
      have he : e ≤ -spec.mantissaBits := h
      unfold Format.mantissaBits at he
      refine lt_iff.2 ⟨rfl, rfl, Prod.Lex.toLex_lt_toLex.2 (.inr ⟨rfl, ?_⟩)⟩
      refine Prod.Lex.toLex_lt_toLex.2 (.inl ?_)
      show e < -_
      omega

end Machine

/-! ## 3. Double and single precision -/

section Machine

open MachineScalar Float.Model Float.Model.UnpackedFloat

variable {α : Type} [Scalar α] [MachineScalar α]

theorem MachineScalar.canonical {x : α} {s : Sign} {m : Nat} {e : Int} {hm : 0 < m}
    (h : value x = .finite s m e hm) : Machine.Canonical (format α) m e := by
  have hbits : 1 < (format α).exponentBits := Nat.lt_of_succ_lt (two_lt_exponentBits (α := α))
  obtain ⟨b, hb⟩ := exists_bits x
  obtain ⟨hlt, hle, -⟩ := Machine.unpack_eq_finite _ hbits (hb.symm.trans h)
  exact ⟨hlt, hle, Machine.normal_of_unpack _ hbits (hb.symm.trans h)⟩

instance : QuotientScalar α where
  zero_lt_one := by
    rw [lt_iff, value_zero, value_one]
    rfl
  div_lt_one {x y} hx h := by
    have hbits := two_lt_exponentBits (α := α)
    have hfour : 4 ≤ 2 ^ ((format α).exponentBits - 1) :=
      Nat.pow_le_pow_right (n := 2) (by decide) (show 2 ≤ _ by omega)
    have htwice : 2 ^ (format α).exponentBits = 2 ^ ((format α).exponentBits - 1) * 2 := by
      rw [← Nat.pow_succ]
      congr 1
      omega
    have hbias : (format α).exponentBias = 2 ^ ((format α).exponentBits - 1) - 1 := rfl
    have hE : (format α).minExponent ≤ -(format α).mantissaBits := by
      rw [Machine.minExponent_eq _ (by omega), hbias]
      unfold Format.mantissaBits
      omega
    have hreaches : Machine.Reaches (format α) (-(format α).mantissaBits) := by
      unfold Machine.Reaches Format.mantissaBits
      omega
    rw [le_iff, value_zero] at hx
    rw [lt_iff] at h
    rw [lt_iff, value_div, value_one]
    exact Machine.Bounded.lt_one (Machine.bounded_unpack_pack _ (by omega) hE hreaches
      (Machine.bounded_div hE (fun _ _ _ _ => canonical) (fun _ _ _ _ => canonical) hx h))
  div_lt_of_infinite {x y t} hx hy hnan ht := by
    rw [isFinite_eq] at hx hy
    rw [isNaN_eq] at hnan
    rw [lt_iff, value_zero, Machine.lt_iff] at ht
    rw [lt_iff, value_div, Machine.lt_iff]
    obtain ⟨s, hs⟩ : ∃ s, div (format α) (value x) (value y) = .zero s := by
      cases hvalue : value y with
      | notANumber =>
        rw [hvalue] at hnan
        cases hnan
      | zero s =>
        rw [hvalue] at hy
        cases hy
      | finite s m e hm =>
        rw [hvalue] at hy
        cases hy
      | infinity s =>
        rcases Machine.cases_isFinite hx with ⟨r, hr⟩ | ⟨r, m, e, hm, hr⟩
        · exact ⟨_, by rw [hr]; rfl⟩
        · exact ⟨_, by rw [hr]; rfl⟩
    obtain ⟨r, hr⟩ := Machine.exists_unpack_zero (format α) s
    rw [hs, hr]
    exact ⟨rfl, ht.2.1, ht.2.2⟩

end Machine

/-! ## 4. What a quotient tells -/

section Tells

variable {α : Type} [Scalar α] [QuotientScalar α] {x y t : α}

open OrderedScalar QuotientScalar

/-- If the quotient is not below one, the divisor is no larger than the dividend. -/
theorem QuotientScalar.le_of_not_div_lt_one (hx : Scalar.isFinite x = true) (hpos : 0 ≤ x)
    (hy : Scalar.isNaN y = false) (h : ¬ x / y < 1) : y ≤ x :=
  le_of_not_lt (isNaN_of_isFinite hx) hy fun hlt => h (div_lt_one hpos hlt)

/-- If the quotient is not below some positive value, the divisor is finite. -/
theorem QuotientScalar.isFinite_of_not_div_lt (hx : Scalar.isFinite x = true)
    (hy : Scalar.isNaN y = false) (ht : 0 < t) (h : ¬ x / y < t) : Scalar.isFinite y = true :=
  Bool.eq_true_of_not_eq_false fun hinfinite => h (div_lt_of_infinite hx hinfinite hy ht)

end Tells

end Quasidefinite

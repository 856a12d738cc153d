import CyclePlan.Proofs.Scalar.Words

/-!
# Words as Doubles

That an integer of sixty-four bits is a finite double.

The greatest double has an exponent close to a thousand, and a word has sixty-four
bits, so there is no need to know which double an integer is rounded to. Crude
bounds are enough. A double is moderate if it is zero, or finite with a bound on its
exponent and on the bits of its mantissa. Rounding moves an exponent by no more than
there are bits to lose, twice because a mantissa that is rounded up can need one bit
more (`isModerate_round`). Writing a moderate double to bits and reading it again
changes nothing of that, since the exponent fits into its eleven bits with room to
spare (`isModerate_unpack_pack`).

## Main definitions

* `Scalar.IsModerate`: Far from the greatest double.

## Theorems

* `Scalar.isModerate_round`, `Scalar.isModerate_mul`,
  `Scalar.isModerate_unpack_pack`: What keeps doubles moderate.
* `Scalar.isModerate_ofInt`: Words are moderate.
-/

namespace CyclePlan

namespace Scalar

open Float.Model

/-- Zero, or finite with a mantissa of so many bits and no exponent above a bound. -/
inductive IsModerate (b : Nat) (k : Int) : UnpackedFloat → Prop
  | zero (s : UnpackedFloat.Sign) : IsModerate b k (.zero s)
  | finite (s : UnpackedFloat.Sign) {m : Nat} {e : Int} (hpos : 0 < m) (hm : m < 2 ^ b)
    (hlow : -1100 ≤ e) (hup : e ≤ k) : IsModerate b k (.finite s m e hpos)

variable {b : Nat} {k e : Int} {m : Nat} {u : UnpackedFloat}

theorem IsModerate.isFinite (h : IsModerate b k u) : u.isFinite = true := by
  cases h <;> rfl

theorem IsModerate.neg (h : IsModerate b k u) : IsModerate b k u.neg := by
  cases h with
  | zero s => exact .zero _
  | finite s hpos hm hlow hup => exact .finite _ hpos hm hlow hup

/-- A choice between moderate numbers is moderate. -/
theorem IsModerate.dite {c : Prop} [Decidable c] {x : c → UnpackedFloat} {y : ¬ c → UnpackedFloat}
    (hx : ∀ h, IsModerate b k (x h)) (hy : ∀ h, IsModerate b k (y h)) :
    IsModerate b k (if h : c then x h else y h) := by
  by_cases h : c
  · rw [dif_pos h]
    exact hx h
  · rw [dif_neg h]
    exact hy h

theorem mantissa_shiftRight_le (em : UnpackedFloat.ExtendedMantissa) (n : Nat) :
    (em >>> n).mantissa ≤ em.mantissa := by
  change (Nat.repeat _ n em).mantissa ≤ _
  induction n with
  | zero => exact Nat.le_refl _
  | succ n ih => exact Nat.le_trans (Nat.div_le_self _ _) ih

theorem roundedMantissa_le (em : UnpackedFloat.ExtendedMantissa) :
    em.roundedMantissa ≤ em.mantissa + 1 := by
  have hparity := Nat.mod_lt em.mantissa (by decide : 0 < 2)
  rw [UnpackedFloat.ExtendedMantissa.roundedMantissa]
  rcases em.accuracy with _ | o
  · exact Nat.le_succ _
  · cases o with
    | lt => exact Nat.le_succ _
    | eq => exact Nat.add_le_add_left (Nat.lt_succ_iff.mp hparity) _
    | gt => exact Nat.le_refl _

/-- A mantissa is shifted by no more than its bits, or by what is missing to the least
    exponent. -/
theorem shiftToTargetExponent_bounds (hm : m < 2 ^ b) (hb : 126 ≤ b) (he : -1200 ≤ e) :
    (UnpackedFloat.shiftToTargetExponent .binary64 m e .exact).1.mantissa ≤ m ∧
      -1074 ≤ (UnpackedFloat.shiftToTargetExponent .binary64 m e .exact).2 ∧
      (UnpackedFloat.shiftToTargetExponent .binary64 m e .exact).2 ≤ e + b := by
  have hlog : m.log2 + 1 ≤ b := by
    by_cases hzero : m = 0
    · subst hzero
      change 0 + 1 ≤ b
      omega
    · exact (Nat.log2_lt hzero).mpr hm
  have htarget : Format.targetExponent .binary64 (totalExponent m e) ≤ e + b := by
    change max ((m.log2 : Int) + 1 + e - 53) (-1074) ≤ e + b
    omega
  have hleast : -1074 ≤ Format.targetExponent .binary64 (totalExponent m e) :=
    Int.le_max_right _ _
  refine ⟨mantissa_shiftRight_le _ _, ?_, ?_⟩
  · change -1074 ≤ e + ((Format.targetExponent .binary64 (totalExponent m e) - e).toNat : Int)
    omega
  · change e + ((Format.targetExponent .binary64 (totalExponent m e) - e).toNat : Int) ≤ e + b
    omega

/-- Rounding leaves a mantissa of about the same size, and raises the exponent by no more
    than twice the bits. -/
theorem isModerate_round (s : UnpackedFloat.Sign) (hm : m < 2 ^ 200) (he : -1200 ≤ e)
    (hk : e ≤ k) :
    IsModerate 201 (k + 401) (UnpackedFloat.roundWithAccuracy .binary64 s m e .exact) := by
  rcases shiftToTargetExponent_bounds hm (by decide) he with ⟨hm₁, hlow₁, hup₁⟩
  have hround := roundedMantissa_le (UnpackedFloat.shiftToTargetExponent .binary64 m e .exact).1
  rcases shiftToTargetExponent_bounds (b := 201)
    (m := (UnpackedFloat.shiftToTargetExponent .binary64 m e .exact).1.roundedMantissa)
    (e := (UnpackedFloat.shiftToTargetExponent .binary64 m e .exact).2)
    (by omega) (by decide) (by omega) with ⟨hm₂, hlow₂, hup₂⟩
  rw [UnpackedFloat.roundWithAccuracy]
  dsimp only
  exact .dite (fun _ => .zero s) fun _ => .finite s _ (by omega) (by omega) (by omega)

/-- So does a product with a factor that is not large. -/
theorem isModerate_mul {s : UnpackedFloat.Sign} {hpos : 0 < m} (h : IsModerate b k u)
    (hb : b ≤ 140) (hm : m < 2 ^ 53) (hlow : -60 ≤ e) (hup : e ≤ 0) :
    IsModerate 201 (k + 401) (UnpackedFloat.mul .binary64 u (.finite s m e hpos)) := by
  cases h with
  | zero s' => exact .zero _
  | @finite s' m' e' hpos' hm' hlow' hup' =>
      have hprod : m' * m < 2 ^ 200 := by
        calc
          m' * m < 2 ^ b * 2 ^ 53 := Nat.mul_lt_mul_of_lt_of_lt hm' hm
          _ = 2 ^ (b + 53) := (Nat.pow_add 2 b 53).symm
          _ ≤ 2 ^ 200 := Nat.pow_le_pow_right (by decide) (by omega)
      exact isModerate_round _ hprod (by omega) (by omega)

/-- Bits are read as a number unless the exponent has all of them. -/
theorem isModerate_unpack {bits : BitVec 64} {x : BitVec 11}
    (hbits : @UnpackedFloat.unpackExponent .binary64 bits = x) (hx : x.toNat < 2047)
    (hk : (x.toNat : Int) ≤ k + 1075) (hpos : 0 ≤ k) :
    IsModerate 53 k (UnpackedFloat.unpack .binary64 bits) := by
  have hne : x ≠ -1#11 := by
    rintro rfl
    exact absurd hx (by decide)
  delta UnpackedFloat.unpack
  dsimp only
  rw [hbits, if_neg hne]
  have hm : (@UnpackedFloat.unpackMantissa .binary64 bits).toNat < 2 ^ 52 := BitVec.isLt _
  have hsum : (1#1 ++ @UnpackedFloat.unpackMantissa .binary64 bits).toNat < 2 ^ 53 :=
    BitVec.isLt _
  by_cases hzero : x = 0#11
  · rw [if_pos hzero]
    have hlow : (x.toNat : Int) = 0 := by rw [hzero]; rfl
    refine .dite (fun _ => .zero _) fun _ => .finite _ _ (by omega) ?_ ?_
    · change (-1100 : Int) ≤ x.toNat - 1075 + 1
      omega
    · change (x.toNat : Int) - 1075 + 1 ≤ k
      omega
  · rw [if_neg hzero]
    refine .finite _ _ (by omega) ?_ ?_
    · change (-1100 : Int) ≤ x.toNat - 1075
      omega
    · change (x.toNat : Int) - 1075 ≤ k
      omega

theorem isModerate_unpack_packComponents (s : UnpackedFloat.Sign) {x : BitVec 11}
    (m : BitVec 52) (hx : x.toNat < 2047) (hk : (x.toNat : Int) ≤ k + 1075) (hpos : 0 ≤ k) :
    IsModerate 53 k (UnpackedFloat.unpack .binary64
      (UnpackedFloat.packComponents .binary64 s x m)) :=
  isModerate_unpack UnpackedFloat.unpackExponent_packComponents hx hk hpos

/-- Writing a moderate number to bits and reading it again leaves it moderate. -/
theorem isModerate_unpack_pack (h : IsModerate b k u) (hk : k ≤ 900) (hpos : 0 ≤ k) :
    IsModerate 53 k (unpack (pack u)) := by
  change IsModerate 53 k (UnpackedFloat.unpack .binary64 (UnpackedFloat.pack .binary64 u))
  cases h with
  | zero s => exact isModerate_unpack_packComponents s 0 (by decide) (by simp; omega) hpos
  | @finite s m e hm _ hlow hup =>
      have hbias : e + (Format.exponentBias .binary64 : Int)
          + (Format.mantissaBitsWithoutImplicit .binary64 : Int) = e + 1075 := by
        change e + 1023 + 52 = _
        omega
      rw [UnpackedFloat.pack.eq_def]
      simp only [hbias]
      have hsmall : ¬ 2 ^ Format.exponentBits .binary64 ≤ (e + 1075).toNat + 1 := by
        change ¬ 2 ^ 11 ≤ _
        omega
      rw [if_neg hsmall]
      split
      · have hnat : (BitVec.ofNat 11 (e + 1075).toNat).toNat = (e + 1075).toNat := by
          rw [BitVec.toNat_ofNat]
          omega
        exact isModerate_unpack_packComponents s _ (by omega) (by omega) hpos
      · exact isModerate_unpack_packComponents s _ (by decide) (by simp; omega) hpos

theorem isModerate_ofInt_natCast {n : Nat} (hn : n < 2 ^ 64) :
    IsModerate 201 401 (UnpackedFloat.ofInt .binary64 (n : Int)) := by
  rw [UnpackedFloat.ofInt, UnpackedFloat.normalize]
  by_cases hzero : n = 0
  · subst hzero
    exact .zero _
  · rw [Int.compare_eq_gt.mpr (by omega)]
    -- The mantissa is filled up with at most as many zeros as there is room for.
    let shift := (0 - Format.targetExponent .binary64 (totalExponent n 0)).toNat
    have hshift : shift ≤ 52 := by
      have htarget : (n.log2 : Int) + 1 + 0 - 53
          ≤ Format.targetExponent .binary64 (totalExponent n 0) := Int.le_max_left _ _
      change (0 - Format.targetExponent .binary64 (totalExponent n 0)).toNat ≤ 52
      omega
    have hmantissa : n <<< shift < 2 ^ 200 := by
      rw [Nat.shiftLeft_eq]
      calc
        n * 2 ^ shift < 2 ^ 64 * 2 ^ 53 :=
          Nat.mul_lt_mul_of_lt_of_lt hn (Nat.pow_lt_pow_right (by decide) (by omega))
        _ ≤ 2 ^ 200 := by decide
    exact isModerate_round (e := 0 - (shift : Int)) (k := 0) .positive hmantissa (by omega)
      (by omega)

/-- A number of fifty-three bits is read from its bits and multiplied by one, and a larger
    one is rounded. -/
theorem isModerate_ofNat {n : Nat} (hn : n ≤ 2 ^ 63) :
    IsModerate 53 802 (Float.ofNat n).toModel.unpack := by
  change IsModerate 53 802 (Float.ofScientific n false 0).toModel.unpack
  rw [Float.ofScientific]
  split
  · next hsmall =>
    simp only [Bool.false_eq_true, if_false]
    have hone : (Float.exactlyRepresentablePowersOfTen[0]).toModel.unpack
        = .finite .positive (2 ^ 52) (-52) (by decide) := rfl
    change IsModerate 53 802 (unpack (pack (UnpackedFloat.mul .binary64
      (unpack (pack (UnpackedFloat.ofInt .binary64 (n.toUInt64.toNat : Int))))
      (Float.exactlyRepresentablePowersOfTen[0]).toModel.unpack)))
    rw [hone]
    refine isModerate_unpack_pack (isModerate_mul (k := 401)
      (isModerate_unpack_pack (isModerate_ofInt_natCast n.toUInt64.toNat_lt) (by decide)
        (by decide)) (by decide) (by decide) (by decide) (by decide)) (by decide) (by decide)
  · next hlarge =>
    have hm : n ≠ 0 := by
      rintro rfl
      exact hlarge (by decide)
    have hshift : n <<< 53 < 2 ^ 140 := by
      rw [Nat.shiftLeft_eq]
      omega
    have hlow : ¬ (Int.ofNat 0 < -(2 ^ 11 + (n.log2 : Int))) := by
      have hlog := Int.natCast_nonneg n.log2
      change ¬ ((0 : Int) < _)
      omega
    change IsModerate 53 802 (unpack (pack (UnpackedFloat.ofScientific .binary64 n (Int.ofNat 0))))
    refine isModerate_unpack_pack (b := 201) ?_ (by decide) (by decide)
    rw [UnpackedFloat.ofScientific, dif_neg hm]
    dsimp only
    rw [if_neg (by decide), if_neg hlow, if_pos (by decide)]
    exact isModerate_mul (b := 140) (k := 401) (.finite _ _ hshift (by decide) (by decide))
      (by decide) (by decide) (by decide) (by decide)

/-- Words are far from the greatest double. -/
theorem isModerate_ofInt {n : Int} (hn : IsWord n) :
    IsModerate 53 802 (Float.ofInt n).toModel.unpack := by
  rcases hn with ⟨hlow, hup⟩
  cases n with
  | ofNat n =>
      have hn : (n : Int) < 2 ^ 63 := hup
      exact isModerate_ofNat (by omega)
  | negSucc n =>
      exact isModerate_unpack_pack (isModerate_ofNat (n := n.succ) (by omega)).neg (by decide)
        (by decide)

instance : FiniteWords Float where
  zero := by decide
  zero_defined := by decide
  one_defined := by decide
  not_one_lt_zero := by decide
  word n hn := (isModerate_ofInt hn).isFinite
  neg_word n hn := (isModerate_unpack_pack (isModerate_ofInt hn).neg (by decide)
    (by decide)).isFinite

end Scalar

end CyclePlan

-- SUMMARY: A double that does not saturate is always rounded to an integer.
import Mathlib
import Yolol.Number.Approximate

/-!
# Rounding stays finite

Only finite doubles are rounded to an integer, and from an infinite one there would be no
way back to a number. A double below the saturation point has a small exponent. Scaling
it and adding a half make the exponent a little greater at most, which is far from where
doubles end.
-/

namespace Yolol.Double

open Float.Model Float.Model.UnpackedFloat

/-! ## Exponents -/

/-- Zero, or finite with a mantissa of 53 bits and an exponent of at most `bound`. -/
def Bounded (bound : Int) : UnpackedFloat → Prop
  | .zero _ => True
  | .finite _ mantissa exponent _ => mantissa < 2 ^ 53 ∧ exponent ≤ bound
  | .infinity _ | .notANumber => False

theorem Bounded.mono {u : UnpackedFloat} {b c : Int} (hu : Bounded b u) (h : b ≤ c) :
    Bounded c u := by
  cases u with
  | infinity | notANumber => exact hu
  | zero => trivial
  | finite => exact ⟨hu.1, Int.le_trans hu.2 h⟩

theorem mantissa_shiftRight (em : ExtendedMantissa) (count : Nat) :
    (em >>> count).mantissa = em.mantissa / 2 ^ count := by
  show (count.repeat ExtendedMantissa.shiftRightOne em).mantissa = _
  induction count with
  | zero => simp [Nat.repeat]
  | succ count ih => simp [Nat.repeat, ExtendedMantissa.shiftRightOne, ih, Nat.div_div_eq_div_mul,
      Nat.pow_succ]

theorem mantissa_ofAccuracy (mantissa : Nat) (accuracy : Accuracy) :
    (ExtendedMantissa.ofMantissaAndAccuracy mantissa accuracy).mantissa = mantissa := by
  unfold ExtendedMantissa.ofMantissaAndAccuracy
  split <;> rfl

theorem roundedMantissa_le (em : ExtendedMantissa) : em.roundedMantissa ≤ em.mantissa + 1 := by
  unfold ExtendedMantissa.roundedMantissa Accuracy.roundToNearestEven
  split <;> omega

theorem targetExponent_eq (total : Int) :
    Format.binary64.targetExponent total = max (total - 53) (-1074) := rfl

theorem log2_lt_of_lt {m k : Nat} (h : m < 2 ^ (k + 1)) : m.log2 < k + 1 := by
  cases Nat.eq_zero_or_pos m with
  | inl hzero => simp [hzero]
  | inr hpos => exact (Nat.log2_lt (by omega)).mpr h

/-- Shifting leaves a mantissa of 53 bits at most. -/
theorem shiftToTargetExponent_bounds {mantissa : Nat} {exponent bound : Int} (accuracy : Accuracy)
    (hbound : -1074 ≤ bound) (hexponent : exponent ≤ bound)
    (htotal : totalExponent mantissa exponent ≤ bound + 53) :
    (shiftToTargetExponent .binary64 mantissa exponent accuracy).1.mantissa < 2 ^ 53 ∧
      (shiftToTargetExponent .binary64 mantissa exponent accuracy).2 ≤ bound := by
  simp only [shiftToTargetExponent, shiftToExponent, mantissa_shiftRight, mantissa_ofAccuracy,
    targetExponent_eq]
  unfold totalExponent at *
  refine ⟨?_, by omega⟩
  rw [Nat.div_lt_iff_lt_mul (Nat.two_pow_pos _), ← Nat.pow_add]
  calc mantissa < 2 ^ (mantissa.log2 + 1) := Nat.lt_log2_self
    _ ≤ _ := Nat.pow_le_pow_right (by omega) (by omega)

/-- Rounding may carry into one more bit. -/
theorem bounded_roundWithAccuracy {mantissa : Nat} {exponent bound : Int} (sign : Sign)
    (accuracy : Accuracy) (hbound : -1074 ≤ bound) (hexponent : exponent ≤ bound)
    (htotal : totalExponent mantissa exponent ≤ bound + 53) :
    Bounded (bound + 1) (roundWithAccuracy .binary64 sign mantissa exponent accuracy) := by
  obtain ⟨hmantissa, hshifted⟩ :=
    shiftToTargetExponent_bounds accuracy hbound hexponent htotal
  unfold roundWithAccuracy
  generalize shiftToTargetExponent .binary64 mantissa exponent accuracy = shifted at *
  obtain ⟨em, e⟩ := shifted
  -- A carry may give the mantissa a bit too many, which the second shift takes off again.
  have hlog : em.roundedMantissa.log2 < 53 + 1 := by
    have hcarry := roundedMantissa_le em
    simp only at hmantissa
    exact log2_lt_of_lt (by omega)
  have htotal : totalExponent em.roundedMantissa e ≤ (bound + 1) + 53 := by
    unfold totalExponent
    simp only at hshifted
    omega
  obtain ⟨hfinal, hlast⟩ := shiftToTargetExponent_bounds .exact
    (by omega : -1074 ≤ bound + 1) (Int.le_add_one hshifted) htotal
  simp only
  split
  · trivial
  · exact ⟨hfinal, hlast⟩

theorem log2_shiftLeft {m : Nat} (hpos : 0 < m) (count : Nat) :
    (m <<< count).log2 = m.log2 + count := by
  induction count with
  | zero => simp
  | succ count ih =>
    have hnonzero : m <<< count ≠ 0 := by
      have := Nat.mul_pos hpos (Nat.two_pow_pos count)
      rw [Nat.shiftLeft_eq]
      omega
    rw [Nat.shiftLeft_succ, Nat.log2_two_mul hnonzero, ih]
    omega

theorem totalExponent_decreaseExponent {mantissa : Nat} (hpos : 0 < mantissa)
    (exponent target : Int) :
    totalExponent (decreaseExponent mantissa exponent target).1
        (decreaseExponent mantissa exponent target).2 =
      totalExponent mantissa exponent := by
  simp only [decreaseExponent, totalExponent, log2_shiftLeft hpos]
  omega

theorem bounded_round {mantissa : Nat} {exponent bound : Int} (sign : Sign)
    (hpos : 0 < mantissa) (hbound : -1074 ≤ bound)
    (htotal : totalExponent mantissa exponent ≤ bound + 53) :
    Bounded (bound + 1) (round .binary64 sign mantissa exponent) := by
  unfold UnpackedFloat.round
  simp only
  refine bounded_roundWithAccuracy sign .exact hbound ?_ ?_
  · simp only [decreaseExponent, targetExponent_eq]
    omega
  · rw [totalExponent_decreaseExponent hpos]
    exact htotal

theorem bounded_normalize {mantissa exponent bound : Int} (zeroSign : Sign)
    (hbound : -1074 ≤ bound) (htotal : totalExponent mantissa.natAbs exponent ≤ bound + 53) :
    Bounded (bound + 1) (normalize .binary64 mantissa exponent zeroSign) := by
  unfold UnpackedFloat.normalize
  split
  · rename_i hlt
    rw [Int.compare_eq_lt] at hlt
    rw [show mantissa.natAbs = (-mantissa).toNat by omega] at htotal
    exact bounded_round .negative (by omega) hbound htotal
  · trivial
  · rename_i hgt
    rw [Int.compare_eq_gt] at hgt
    rw [show mantissa.natAbs = mantissa.toNat by omega] at htotal
    exact bounded_round .positive (by omega) hbound htotal

/-! ## Sums and products -/

theorem bounded_mul {u v : UnpackedFloat} {b c : Int} (hu : Bounded b u) (hv : Bounded c v)
    (hbound : -1127 ≤ b + c) : Bounded (b + c + 53 + 1) (mul .binary64 u v) := by
  cases u with
  | infinity | notANumber => exact hu.elim
  | zero sign => cases v with
    | infinity | notANumber => exact hv.elim
    | zero | finite => trivial
  | finite s m e hm => cases v with
    | infinity | notANumber => exact hv.elim
    | zero => trivial
    | finite t n f hn =>
      obtain ⟨hmantissa, hexponent⟩ := hu
      obtain ⟨hmantissa', hexponent'⟩ := hv
      have hproduct : m * n < 2 ^ (105 + 1) := calc
        m * n < 2 ^ 53 * 2 ^ 53 := Nat.mul_lt_mul_of_lt_of_lt hmantissa hmantissa'
        _ = 2 ^ (105 + 1) := by rw [← Nat.pow_add]
      have hlog := log2_lt_of_lt hproduct
      refine bounded_roundWithAccuracy _ .exact (by omega) (by omega) ?_
      unfold totalExponent
      omega

/-- A mantissa brought to the lower exponent `least` still has the size it had. -/
theorem decreaseExponent_lt {mantissa : Nat} {exponent bound : Int} (least : Int)
    (hmantissa : mantissa < 2 ^ 53) (hexponent : exponent ≤ bound) :
    (decreaseExponent mantissa exponent least).1 < 2 ^ (53 + (bound - least).toNat) := by
  simp only [decreaseExponent, Nat.shiftLeft_eq]
  calc mantissa * 2 ^ (exponent - least).toNat
      < 2 ^ 53 * 2 ^ (exponent - least).toNat :=
        Nat.mul_lt_mul_of_pos_right hmantissa (Nat.two_pow_pos _)
    _ ≤ 2 ^ 53 * 2 ^ (bound - least).toNat :=
        Nat.mul_le_mul_left _ (Nat.pow_le_pow_right (by omega) (by omega))
    _ = 2 ^ (53 + (bound - least).toNat) := (Nat.pow_add ..).symm

/-- What two mantissas at the same exponent give has one bit more at most. -/
theorem bounded_normalize_combined {m n : Nat} {sum e f b : Int}
    (hmantissa : m < 2 ^ 53) (hexponent : e ≤ b) (hmantissa' : n < 2 ^ 53) (hexponent' : f ≤ b)
    (hbound : -1075 ≤ b)
    (hsum : sum.natAbs ≤ (decreaseExponent m e (min e f)).1 + (decreaseExponent n f (min e f)).1) :
    Bounded (b + 1 + 1) (normalize .binary64 sum (min e f) .positive) := by
  have hleft := decreaseExponent_lt (min e f) hmantissa hexponent
  have hright := decreaseExponent_lt (min e f) hmantissa' hexponent'
  have hlog : sum.natAbs.log2 < 53 + (b - min e f).toNat + 1 := by
    apply log2_lt_of_lt
    rw [Nat.pow_succ]
    omega
  refine bounded_normalize .positive (by omega) ?_
  unfold totalExponent
  omega

theorem natAbs_apply (sign : Sign) (m : Nat) : (sign.apply m).natAbs = m := by
  cases sign <;> simp [Sign.apply]

theorem bounded_add {u v : UnpackedFloat} {b : Int} (hu : Bounded b u) (hv : Bounded b v)
    (hbound : -1075 ≤ b) : Bounded (b + 1 + 1) (add .binary64 u v) := by
  cases u with
  | infinity | notANumber => exact hu.elim
  | zero sign => cases v with
    | infinity | notANumber => exact hv.elim
    | zero =>
      simp only [UnpackedFloat.add]
      split <;> trivial
    | finite => exact hv.mono (by omega)
  | finite s m e hm => cases v with
    | infinity | notANumber => exact hv.elim
    | zero => exact hu.mono (by omega)
    | finite t n f hn =>
      refine bounded_normalize_combined hu.1 hu.2 hv.1 hv.2 hbound ?_
      rw [← natAbs_apply s (decreaseExponent m _ _).1, ← natAbs_apply t (decreaseExponent n _ _).1]
      exact Int.natAbs_add_le ..

theorem sub_eq_add_neg (u v : UnpackedFloat) : sub .binary64 u v = add .binary64 u v.neg := by
  cases u with
  | notANumber => rfl
  | infinity | zero => cases v <;> rfl
  | finite s m e hm => cases v with
    | notANumber | infinity | zero => rfl
    | finite t n f hn =>
      cases t <;>
        simp [UnpackedFloat.sub, UnpackedFloat.add, UnpackedFloat.neg, Sign.apply,
          Int.sub_eq_add_neg]

theorem Bounded.neg {u : UnpackedFloat} {b : Int} (hu : Bounded b u) : Bounded b u.neg := by
  cases u <;> exact hu

theorem bounded_sub {u v : UnpackedFloat} {b : Int} (hu : Bounded b u) (hv : Bounded b v)
    (hbound : -1075 ≤ b) : Bounded (b + 1 + 1) (sub .binary64 u v) :=
  sub_eq_add_neg u v ▸ bounded_add hu hv.neg hbound

/-! ## Bits -/

/-- The exponent among the bits of a double. -/
def exponentBits (bits : BitVec 64) : BitVec 11 := @unpackExponent .binary64 bits

theorem toNat_exponentBits (bits : BitVec 64) :
    (exponentBits bits).toNat = bits.toNat / 2 ^ 52 % 2 ^ 11 := by
  simp [exponentBits, unpackExponent, BitVec.extractLsb, Nat.shiftRight_eq_div_pow]

@[simp]
theorem exponentBits_packComponents (sign : Sign) (exponent : BitVec 11) (mantissa : BitVec 52) :
    exponentBits (packComponents .binary64 sign exponent mantissa) = exponent :=
  unpackExponent_packComponents

theorem exponentBias_eq : Format.binary64.exponentBias = 1023 := rfl

theorem toNat_one_append (mantissa : BitVec 52) :
    (1#1 ++ mantissa).toNat = 2 ^ 52 + mantissa.toNat := by
  rw [BitVec.toNat_append, ← Nat.shiftLeft_add_eq_or_of_lt mantissa.isLt]
  simp [Nat.shiftLeft_eq]

/-- What a double with that exponent among its bits may be: the greatest exponent is for what
    is not finite, the least one for mantissas without the first bit. -/
inductive Reads (exponent : Nat) : UnpackedFloat → Prop
  | infinity (s : Sign) : exponent = 2047 → Reads exponent (.infinity s)
  | notANumber : exponent = 2047 → Reads exponent .notANumber
  | zero (s : Sign) : exponent < 2047 → Reads exponent (.zero s)
  | finite {s : Sign} {m : Nat} {e : Int} {h : 0 < m} : exponent < 2047 → m < 2 ^ 53 →
      e = max exponent 1 - 1075 → (0 < exponent → m.log2 = 52) → Reads exponent (.finite s m e h)

theorem reads_unpack (bits : BitVec 64) :
    Reads (exponentBits bits).toNat (UnpackedFloat.unpack .binary64 bits) := by
  have hlt : (exponentBits bits).toNat < 2048 := (exponentBits bits).isLt
  unfold exponentBits at *
  unfold UnpackedFloat.unpack
  simp only [exponentBias_eq]
  split
  next htop =>
    rw [htop]
    split
    · exact .infinity _ rfl
    · exact .notANumber rfl
  next htop =>
  have hbelow : (@unpackExponent .binary64 bits).toNat < 2047 := by
    have : (@unpackExponent .binary64 bits).toNat ≠ 2047 :=
      fun heq => htop (BitVec.eq_of_toNat_eq heq)
    omega
  split
  next hzero =>
    rw [hzero]
    split
    · exact .zero _ (by decide)
    · exact .finite (by decide) (Nat.lt_trans (BitVec.isLt _) (by decide)) rfl (by simp)
  next hzero =>
    have hpos : (@unpackExponent .binary64 bits).toNat ≠ 0 :=
      fun heq => hzero (BitVec.eq_of_toNat_eq heq)
    have hlog : (1#1 ++ @unpackMantissa .binary64 bits).toNat.log2 = 52 := by
      refine (Nat.log2_eq_iff (by rw [toNat_one_append]; omega)).mpr ⟨?_, BitVec.isLt _⟩
      rw [toNat_one_append]
      omega
    exact .finite hbelow (BitVec.isLt _) (by omega) (fun _ => hlog)

theorem reads_toModel (x : Float) :
    Reads (exponentBits x.toBits.toBitVec).toNat x.toModel.unpack :=
  reads_unpack _

theorem Reads.bounded {exponent : Nat} {u : UnpackedFloat} {b : Int} (h : Reads exponent u)
    (hleast : -1074 ≤ b) (hgreatest : b ≤ 971) (hexponent : exponent ≤ b + 1075) :
    Bounded b u := by
  cases h with
  | infinity s htop | notANumber htop => omega
  | zero => trivial
  | finite hbelow hmantissa hequal hlog => exact ⟨hmantissa, by omega⟩

theorem Reads.lt_of_bounded {exponent : Nat} {u : UnpackedFloat} {b : Int} (h : Reads exponent u)
    (hu : Bounded b u) : exponent < 2047 := by
  cases h with
  | infinity s htop | notANumber htop => exact hu.elim
  | zero s hbelow => exact hbelow
  | finite hbelow => exact hbelow

/-- Above the least exponent a mantissa has all its bits. -/
theorem Reads.log2 {exponent : Nat} {s : Sign} {m : Nat} {e : Int} {hm : 0 < m}
    (h : Reads exponent (.finite s m e hm)) (hleast : -1074 < e) : m.log2 = 52 ∧ e ≤ 971 := by
  cases h with
  | finite hbelow hmantissa hexponent hlog => exact ⟨hlog (by omega), by omega⟩

theorem Reads.mantissa_lt {exponent : Nat} {s : Sign} {m : Nat} {e : Int} {hm : 0 < m}
    (h : Reads exponent (.finite s m e hm)) : m < 2 ^ 53 := by
  cases h with
  | finite hbelow hmantissa hexponent hlog => exact hmantissa

theorem bounded_pack {u : UnpackedFloat} {b : Int} (hu : Bounded b u) (hleast : -1074 ≤ b)
    (hgreatest : b ≤ 971) : Bounded b (Float.Model.pack u).unpack := by
  apply (reads_unpack _).bounded hleast hgreatest
  simp only [Float.Model.pack]
  cases u with
  | infinity | notANumber => exact hu.elim
  | zero sign =>
    simp only [UnpackedFloat.pack, packedZero, exponentBits_packComponents, BitVec.ofNat_eq_ofNat,
      BitVec.toNat_ofNat]
    omega
  | finite s m e hm =>
    have hexponent : e ≤ b := hu.2
    unfold UnpackedFloat.pack
    simp only
    split
    next hover =>
      rw [exponentBias_eq] at hover
      omega
    split
    · simp only [exponentBits_packComponents, BitVec.toNat_ofNat, exponentBias_eq]
      omega
    · simp only [exponentBits_packComponents, BitVec.toNat_ofNat]
      omega

/-- A bounded double is a finite one. -/
theorem exists_finite_of_bounded {x : Float} {b : Int} (hx : Bounded b x.toModel.unpack) :
    ∃ m e, ofFloat x = .finite m e := by
  have hbelow := (reads_toModel x).lt_of_bounded hx
  rw [toNat_exponentBits] at hbelow
  have hexponent : x.toBits.toNat / hiddenBit % (topExponent + 1) ≠ topExponent :=
    Nat.ne_of_lt hbelow
  unfold ofFloat ofBits
  simp only [if_neg hexponent]
  split <;> exact ⟨_, _, rfl⟩

/-! ## Doubles below the saturation point -/

theorem saturationPoint_unpack :
    ∃ m h, Number.saturationPoint.toModel.unpack = .finite .positive m (-3) h := by
  have hbits : Number.saturationPoint.toBits = 0x430A36E2EB1C432D := by decide +kernel
  change Number.saturationPoint.toModel.toBits = _ at hbits
  rw [Float.Model.unpack, hbits]
  exact ⟨_, _, rfl⟩

/-- With all its bits in the mantissa a double keeps its exponent in packed form. -/
theorem pack_finite {s : Sign} {m : Nat} {e : Int} (h : 0 < m) (hlog : m.log2 = 52)
    (hgreatest : e ≤ 971) :
    UnpackedFloat.pack .binary64 (.finite s m e h) =
      packComponents .binary64 s (BitVec.ofNat 11 (e + 1075).toNat) (BitVec.ofNat 52 m) := by
  unfold UnpackedFloat.pack
  simp only [hlog]
  split
  next hover =>
    rw [exponentBias_eq] at hover
    omega
  split
  next =>
    rw [exponentBias_eq, Int.add_assoc]
    rfl
  next hshort => exact absurd rfl hshort

theorem unpack_pack_finite {s : Sign} {m : Nat} {e : Int} (h : 0 < m) (hlog : m.log2 = 52)
    (hleast : -1074 < e) (hgreatest : e ≤ 971) :
    ∃ n h', (Float.Model.pack (.finite s m e h)).unpack = .finite s n e h' := by
  have hbits : (BitVec.ofNat 11 (e + 1075).toNat).toNat = (e + 1075).toNat := by
    rw [BitVec.toNat_ofNat]
    omega
  have htop : BitVec.ofNat 11 (e + 1075).toNat ≠ -1#11 := by
    intro heq
    rw [heq] at hbits
    simp at hbits
    omega
  have hzero : BitVec.ofNat 11 (e + 1075).toNat ≠ 0#11 := by
    intro heq
    rw [heq] at hbits
    simp at hbits
    omega
  simp only [Float.Model.unpack, Float.Model.pack, pack_finite h hlog hgreatest]
  unfold UnpackedFloat.unpack
  simp only [unpackExponent_packComponents, unpackMantissa_packComponents,
    unpackSign_packComponents, Sign.ofBitVec_toBitVec, if_neg htop, if_neg hzero, hbits,
    exponentBias_eq]
  rw [show ((e + 1075).toNat : Int) - ((1023 : Nat) + (52 : Nat)) = e by omega]
  exact ⟨_, by rw [toNat_one_append]; omega, rfl⟩

theorem unpack_pack_infinity :
    (Float.Model.pack (.infinity .positive)).unpack = .infinity .positive := rfl

theorem le_iff (x y : Float) : x ≤ y ↔ x.toModel.unpack.le y.toModel.unpack = true :=
  decide_eq_true_iff

/-- A greater exponent than that of the saturation point would make the double saturate. -/
theorem bounded_of_not_saturated {x : Float} (hnumber : x.isNaN = false)
    (hsmall : ¬ x.abs ≥ Number.saturationPoint) : Bounded (-3) x.toModel.unpack := by
  obtain ⟨m, hm, hpoint⟩ := saturationPoint_unpack
  rw [ge_iff_le, le_iff, hpoint] at hsmall
  change ¬ UnpackedFloat.le _ (Float.Model.pack x.toModel.unpack.abs).unpack = true at hsmall
  cases hx : x.toModel.unpack with
  | notANumber =>
    change x.toModel.unpack.isNaN = false at hnumber
    simp [hx, UnpackedFloat.isNaN] at hnumber
  | infinity sign =>
    rw [hx, UnpackedFloat.abs, unpack_pack_infinity] at hsmall
    simp [UnpackedFloat.le, UnpackedFloat.compare] at hsmall
  | zero sign => trivial
  | finite s n e hn =>
    have hreads := hx ▸ reads_toModel x
    refine ⟨hreads.mantissa_lt, Int.not_lt.mp fun hlarge => ?_⟩
    obtain ⟨hlog, hgreatest⟩ := hreads.log2 (by omega)
    obtain ⟨k, hk, habs⟩ := unpack_pack_finite hn hlog (by omega) hgreatest
    have hcompare : compare (-3) e = .lt := by rw [Int.compare_eq_lt]; omega
    rw [hx, UnpackedFloat.abs, habs] at hsmall
    simp [UnpackedFloat.le, UnpackedFloat.compare, hcompare] at hsmall

/-! ## Rounding -/

theorem bounded_of_toBits {x : Float} {b : Int} (word : UInt64) (hbits : x.toBits = word)
    (hleast : -1074 ≤ b) (hgreatest : b ≤ 971)
    (hexponent : (exponentBits word.toBitVec).toNat ≤ b + 1075) :
    Bounded b x.toModel.unpack := by
  subst hbits
  exact (reads_toModel x).bounded hleast hgreatest hexponent

theorem bounded_tenThousand : Bounded (-39) (10000 : Float).toModel.unpack :=
  bounded_of_toBits 0x40C3880000000000 (by decide +kernel) (by decide) (by decide)
    (by decide)

theorem bounded_half : Bounded (-53) (0.5 : Float).toModel.unpack :=
  bounded_of_toBits 0x3FE0000000000000 (by decide +kernel) (by decide) (by decide)
    (by decide)

/-- A double below the saturation point is rounded to an integer. -/
theorem exists_roundAway {x : Float} (hnumber : x.isNaN = false)
    (hsmall : ¬ x.abs ≥ Number.saturationPoint) :
    ∃ units, roundAway (x * 10000) = .ok units := by
  have hx := bounded_of_not_saturated hnumber hsmall
  have hscaled : Bounded 12 (x * 10000).toModel.unpack :=
    bounded_pack (bounded_mul hx bounded_tenThousand (by decide)) (by decide) (by decide)
  have hhalf : Bounded 12 (0.5 : Float).toModel.unpack :=
    bounded_half.mono (by decide)
  have hup : Bounded 14 (x * 10000 + 0.5).toModel.unpack :=
    bounded_pack (bounded_add hscaled hhalf (by decide)) (by decide) (by decide)
  have hdown : Bounded 14 (x * 10000 - 0.5).toModel.unpack :=
    bounded_pack (bounded_sub hscaled hhalf (by decide)) (by decide) (by decide)
  unfold roundAway
  simp only
  by_cases hsign : x * 10000 ≥ 0
  · obtain ⟨m, e, hfinite⟩ := exists_finite_of_bounded hup
    simp only [if_pos hsign, hfinite]
    exact ⟨_, rfl⟩
  · obtain ⟨m, e, hfinite⟩ := exists_finite_of_bounded hdown
    simp only [if_neg hsign, hfinite]
    exact ⟨_, rfl⟩

end Yolol.Double

-- SUMMARY: Remainders, and how they fit together with quotients.
import Yolol.Proofs.Arithmetic

/-!
# Quotients and remainders

The remainder is what the whole quotient of the raws leaves of the dividend. The quotient of
two numbers is cut twice on the way to its whole part, first after the fourth place and then
at the point, and the two cuts come to one. So the whole part of the quotient, times the
divisor, leaves just the remainder.
-/

namespace Yolol.Number

-- ---------------------------------------------------------------------------
-- Quotients of integers
-- ---------------------------------------------------------------------------

theorem quotient_eq_tdiv (a b : ℤ) : quotient a b = a.tdiv b := by
  have hnat (m n : ℕ) : quotient m n = (m : ℤ).tdiv n := by
    rcases n.eq_zero_or_pos with rfl | hn
    · simp [quotient]
    · simp [quotient, hn]
  obtain ⟨m, rfl | rfl⟩ := a.eq_nat_or_neg <;> obtain ⟨n, rfl | rfl⟩ := b.eq_nat_or_neg
  · exact hnat m n
  · rw [quotient_neg_right, hnat, Int.tdiv_neg]
  · rw [quotient_neg_left, hnat, Int.neg_tdiv]
  · rw [quotient_neg_left, quotient_neg_right, hnat, Int.neg_tdiv, Int.tdiv_neg]

/-- Cutting twice is cutting once. -/
theorem tdiv_tdiv (a b c : ℤ) : (a.tdiv b).tdiv c = a.tdiv (b * c) := by
  have hnat (m n k : ℕ) : ((m : ℤ).tdiv n).tdiv k = (m : ℤ).tdiv (n * k) := by
    rw [← Int.natCast_mul, ← Int.ofNat_tdiv, ← Int.ofNat_tdiv, ← Int.ofNat_tdiv,
      Nat.div_div_eq_div_mul]
  obtain ⟨m, rfl | rfl⟩ := a.eq_nat_or_neg <;> obtain ⟨n, rfl | rfl⟩ := b.eq_nat_or_neg <;>
    obtain ⟨k, rfl | rfl⟩ := c.eq_nat_or_neg <;>
    simp only [Int.neg_tdiv, Int.tdiv_neg, Int.neg_mul, Int.mul_neg, Int.neg_neg, hnat]

/-- The whole part of a quotient to four places is the quotient of the raws. -/
theorem tdiv_mul_tdiv (a b : ℤ) : ((a * 10000).tdiv b).tdiv 10000 = a.tdiv b :=
  calc ((a * 10000).tdiv b).tdiv 10000
    _ = (10000 * a).tdiv (10000 * b) := by rw [tdiv_tdiv, Int.mul_comm a, Int.mul_comm b]
    _ = a.tdiv b := Int.mul_tdiv_mul_of_pos a b (by decide)

/-- What division leaves lies between zero and the dividend. -/
theorem tmod_between (a b : ℤ) : (0 ≤ a.tmod b ∧ a.tmod b ≤ a) ∨ (a ≤ a.tmod b ∧ a.tmod b ≤ 0) := by
  have hle : (a.tmod b).natAbs ≤ a.natAbs := by
    rw [Int.natAbs_tmod]
    exact Nat.mod_le _ _
  rcases le_total 0 a with ha | ha
  · have hnonneg := Int.tmod_nonneg b ha
    exact .inl (by omega)
  · have hnonneg := Int.tmod_nonneg b (Int.neg_nonneg_of_nonpos ha)
    rw [Int.neg_tmod] at hnonneg
    exact .inr (by omega)

-- ---------------------------------------------------------------------------
-- Staying in the range
-- ---------------------------------------------------------------------------

/-- The integers that numbers hold. -/
def InRange (x : ℤ) : Prop := rawMin ≤ x ∧ x ≤ rawMax

theorem inRange_raw (a : Number) : InRange a.raw := ⟨a.rawMin_le, a.le_rawMax⟩

theorem InRange.clamp {x : ℤ} (h : InRange x) : clamp x = x := clamp_eq_self h.1 h.2

theorem InRange.tmod {x : ℤ} (h : InRange x) (b : ℤ) : InRange (x.tmod b) := by
  have hbetween := tmod_between x b
  simp only [InRange, rawMin, rawMax] at *
  omega

theorem InRange.mul_tdiv {x : ℤ} (h : InRange x) (b : ℤ) : InRange (b * x.tdiv b) := by
  have hbetween := tmod_between x b
  have hsum := Int.mul_tdiv_add_tmod x b
  simp only [InRange, rawMin, rawMax] at *
  omega

-- ---------------------------------------------------------------------------
-- Numbers
-- ---------------------------------------------------------------------------

/-- Taking a remainder by anything but zero has a result, which needs no clamping. -/
theorem mod_eq_ok (a : Number) {b : Number} (hb : b.raw ≠ 0) :
    ∃ r, a.mod b = .ok r ∧ r.raw = a.raw.tmod b.raw := by
  refine ⟨_, if_neg hb, ?_⟩
  rw [raw_ofRaw, quotient_eq_tdiv, ← Int.tmod_def, (a.inRange_raw.tmod b.raw).clamp]

/-- A whole number times `b`, if neither the number nor the product saturates. -/
theorem raw_ofInt_mul {k : ℤ} {b : Number} (hk : InRange (10000 * k))
    (hproduct : InRange (b.raw * k)) : ((ofInt k).mul b).raw = b.raw * k := by
  have hfactor : (ofInt k).raw = 10000 * k := by
    rw [ofInt, raw_ofRaw, scale, Int.mul_comm, hk.clamp]
  have hquotient : quotient ((ofInt k).raw * b.raw) scale = b.raw * k := by
    rw [hfactor, quotient_eq_tdiv, scale, Int.mul_assoc, Int.mul_comm k,
      Int.mul_tdiv_cancel_left _ (by decide)]
  rw [mul, raw_ofRaw, hquotient, hproduct.clamp]

/-- The exact quotient of two numbers in units, cut toward zero. -/
theorem towardZero_div (a b : Number) :
    towardZero (a.raw * 10000 / b.raw) = (a.raw * 10000).tdiv b.raw := by
  rw [← quotient_eq_tdiv, quotient_eq_towardZero]
  push_cast
  rfl

/-- If the quotient fits, the divisor times its whole part and the remainder are the dividend. -/
theorem dividend_eq {a b r : Number} (hrange : InRange ((a.raw * 10000).tdiv b.raw))
    (hr : r.raw = a.raw.tmod b.raw) :
    ((ofInt (ofRaw ((a.raw * 10000).tdiv b.raw)).truncate).mul b).add r = a := by
  have hwhole : (ofRaw ((a.raw * 10000).tdiv b.raw)).truncate = a.raw.tdiv b.raw := by
    rw [truncate, raw_ofRaw, hrange.clamp, quotient_eq_tdiv, scale, tdiv_mul_tdiv]
  have hunits : InRange (10000 * a.raw.tdiv b.raw) := by
    rw [← tdiv_mul_tdiv]
    exact hrange.mul_tdiv 10000
  rw [hwhole, add, raw_ofInt_mul hunits (a.inRange_raw.mul_tdiv b.raw), hr,
    Int.mul_tdiv_add_tmod, ofRaw_raw]

/-- What is left of the dividend has its sign, if anything is left. -/
theorem sign_tmod (a b : ℤ) : a.tmod b = 0 ∨ (a.tmod b).sign = a.sign := by
  rw [Int.sign_tmod, ← Int.dvd_iff_tmod_eq_zero]
  exact (em (b ∣ a)).imp_right fun h => if_neg h

theorem abs_tmod_lt (a : ℤ) {b : ℤ} (hb : b ≠ 0) : |a.tmod b| < |b| := by
  rw [Int.abs_eq_natAbs, Int.abs_eq_natAbs, Int.natAbs_tmod]
  exact_mod_cast Nat.mod_lt _ (Int.natAbs_pos.mpr hb)

/-- The remainder by anything but zero is exact, takes the sign of the dividend and is less
    than the divisor. If the quotient fits into the range, its whole part times the divisor
    and the remainder make up the dividend. -/
theorem division_with_remainder (a b : Number) (hb : b.raw ≠ 0) :
    ∃ r, a.mod b = .ok r ∧
      r.raw = a.raw - b.raw * towardZero (a.raw / b.raw) ∧
      (r.raw = 0 ∨ r.raw.sign = a.raw.sign) ∧
      |r.raw| < |b.raw| ∧
      (InRange (towardZero (a.raw * 10000 / b.raw)) →
        ∃ q, a.div b = .ok q ∧ q.raw = towardZero (a.raw * 10000 / b.raw) ∧
          ((ofInt q.truncate).mul b).add r = a) := by
  obtain ⟨r, hmod, hr⟩ := mod_eq_ok a hb
  refine ⟨r, hmod, ?_, ?_, ?_, fun hrange => ?_⟩
  · rw [hr, ← quotient_eq_towardZero, quotient_eq_tdiv, Int.tmod_def]
  · rw [hr]
    exact sign_tmod a.raw b.raw
  · rw [hr]
    exact abs_tmod_lt a.raw hb
  · rw [towardZero_div] at hrange ⊢
    refine ⟨ofRaw ((a.raw * 10000).tdiv b.raw), ?_, hrange.clamp, dividend_eq hrange hr⟩
    rw [div, if_neg hb, quotient_eq_tdiv, scale]

/-- The least number by minus three, which does not divide it. -/
theorem division_with_remainder_least :
    (ofInt (-3)).raw ≠ 0 ∧ InRange (towardZero (least.raw * 10000 / (ofInt (-3)).raw)) ∧
      ∃ r q, least.mod (ofInt (-3)) = .ok r ∧ r.raw = -25808 ∧
        least.div (ofInt (-3)) = .ok q ∧ ((ofInt q.truncate).mul (ofInt (-3))).add r = least := by
  have hdivisor : (ofInt (-3)).raw ≠ 0 := by decide
  have hrange : InRange (towardZero (least.raw * 10000 / (ofInt (-3)).raw)) := by
    rw [towardZero_div]
    exact ⟨by decide, by decide⟩
  obtain ⟨r, hmod, hexact, -, -, hfits⟩ := division_with_remainder least (ofInt (-3)) hdivisor
  obtain ⟨q, hdiv, -, hsum⟩ := hfits hrange
  refine ⟨hdivisor, hrange, r, q, hmod, ?_, hdiv, hsum⟩
  rw [hexact, ← quotient_eq_towardZero]
  decide

end Yolol.Number

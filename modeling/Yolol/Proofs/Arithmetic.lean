-- SUMMARY: Arithmetic on numbers is that of the rationals, cut to four places and to the range.
import Mathlib.Data.Rat.Floor
import Mathlib.Tactic.Linarith
import Mathlib.Tactic.Positivity
import Yolol.Number.Basic

/-!
# Exact arithmetic

The raw of a sum, a product or a quotient is the one that rational arithmetic gives, first
rounded toward zero to a whole count of units and then moved into the range. Quotients are
computed from magnitudes, with the sign put back afterwards, so a quotient of natural numbers
settles all combinations of signs.
-/

namespace Yolol.Number

-- ---------------------------------------------------------------------------
-- Rounding toward zero
-- ---------------------------------------------------------------------------

/-- The integer next to `q` on the side of zero. -/
def towardZero (q : ℚ) : ℤ := if 0 ≤ q then ⌊q⌋ else ⌈q⌉

theorem towardZero_of_nonneg {q : ℚ} (h : 0 ≤ q) : towardZero q = ⌊q⌋ := if_pos h

theorem towardZero_neg (q : ℚ) : towardZero (-q) = -towardZero q := by
  rcases lt_trichotomy q 0 with hq | rfl | hq
  · rw [towardZero_of_nonneg (by linarith), towardZero, if_neg (by linarith), Int.floor_neg]
  · simp [towardZero]
  · rw [towardZero_of_nonneg hq.le, towardZero, if_neg (by linarith), Int.ceil_neg]

theorem quotient_neg_left (a b : ℤ) : quotient (-a) b = -quotient a b := by
  rcases eq_or_ne a 0 with rfl | ha
  · simp [quotient]
  · have hsign : decide (0 ≤ -a) = !decide (0 ≤ a) := by grind
    simp only [quotient, Int.natAbs_neg, hsign]
    cases decide (0 ≤ a) <;> cases decide (0 < b) <;> simp

theorem quotient_neg_right (a b : ℤ) : quotient a (-b) = -quotient a b := by
  rcases eq_or_ne b 0 with rfl | hb
  · simp [quotient]
  · have hsign : decide (0 < -b) = !decide (0 < b) := by grind
    simp only [quotient, Int.natAbs_neg, hsign]
    cases decide (0 ≤ a) <;> cases decide (0 < b) <;> simp

theorem quotient_natCast (m n : ℕ) : quotient m n = towardZero (m / n) := by
  have hnonneg : (0 : ℚ) ≤ m / n := by positivity
  rw [towardZero_of_nonneg hnonneg, Rat.floor_natCast_div_natCast]
  rcases n.eq_zero_or_pos with rfl | hn
  · simp [quotient]
  · simp [quotient, hn]

/-- Dividing the magnitudes and putting the sign back rounds the exact quotient toward zero. -/
theorem quotient_eq_towardZero (a b : ℤ) : quotient a b = towardZero (a / b) := by
  obtain ⟨m, rfl | rfl⟩ := a.eq_nat_or_neg <;> obtain ⟨n, rfl | rfl⟩ := b.eq_nat_or_neg
  · simpa using quotient_natCast m n
  · rw [quotient_neg_right, quotient_natCast, ← towardZero_neg]
    simp [div_neg]
  · rw [quotient_neg_left, quotient_natCast, ← towardZero_neg]
    simp [neg_div]
  · rw [quotient_neg_left, quotient_neg_right, quotient_natCast, neg_neg]
    simp

-- ---------------------------------------------------------------------------
-- The range
-- ---------------------------------------------------------------------------

/-- The integer of the range that is nearest to `x`. -/
def intoRange (x : ℤ) : ℤ := max rawMin (min x rawMax)

theorem raw_ofRaw_eq (x : ℤ) : (ofRaw x).raw = intoRange x := by
  rw [raw_ofRaw, clamp, intoRange, rawMax, rawMin]
  omega

/-- What has been moved into the range is in it, and what was in it has not moved. -/
theorem intoRange_bounds (x : ℤ) :
    (rawMin ≤ intoRange x ∧ intoRange x ≤ rawMax) ∧
      (rawMin ≤ x → x ≤ rawMax → intoRange x = x) := by
  unfold intoRange rawMax rawMin
  omega

-- ---------------------------------------------------------------------------
-- Operations
-- ---------------------------------------------------------------------------

theorem raw_mul (a b : Number) :
    (a.mul b).raw = intoRange (towardZero (a.raw * b.raw / 10000)) := by
  rw [mul, raw_ofRaw_eq, quotient_eq_towardZero, scale]
  push_cast
  rfl

theorem raw_abs (a : Number) : a.abs.raw = intoRange |a.raw| := by
  rw [abs, raw_ofRaw_eq, Int.abs_eq_natAbs]

/-- Dividing by anything but zero has a result. -/
theorem div_eq_ok (a : Number) {b : Number} (hb : b.raw ≠ 0) :
    ∃ c, a.div b = .ok c ∧ c.raw = intoRange (towardZero (a.raw * 10000 / b.raw)) := by
  refine ⟨_, if_neg hb, ?_⟩
  rw [raw_ofRaw_eq, quotient_eq_towardZero, scale]
  push_cast
  rfl

theorem div_eq_error (a b : Number) (f : ArithmeticFault) :
    a.div b = .error f ↔ b.raw = 0 ∧ f = .divisionByZero := by
  unfold div
  split <;> simp_all [eq_comm]

theorem mod_eq_error (a b : Number) (f : ArithmeticFault) :
    a.mod b = .error f ↔ b.raw = 0 ∧ f = .moduloByZero := by
  unfold mod
  split <;> simp_all [eq_comm]

theorem truncate_eq_towardZero (a : Number) : a.truncate = towardZero (a.raw / 10000) := by
  rw [truncate, quotient_eq_towardZero, scale]
  push_cast
  rfl

/-- Every operation gives the exact result, rounded toward zero and moved into the range; only
    division and remainder by zero have none. -/
theorem arithmetic_exact (a b : Number) :
    ((a.add b).raw = intoRange (a.raw + b.raw) ∧ (a.sub b).raw = intoRange (a.raw - b.raw) ∧
      (a.mul b).raw = intoRange (towardZero (a.raw * b.raw / 10000)) ∧
      a.neg.raw = intoRange (-a.raw) ∧ a.abs.raw = intoRange |a.raw|) ∧
    (b.raw ≠ 0 →
      ∃ c, a.div b = .ok c ∧ c.raw = intoRange (towardZero (a.raw * 10000 / b.raw))) ∧
    (∀ f, a.div b = .error f ↔ b.raw = 0 ∧ f = .divisionByZero) ∧
    (∀ f, a.mod b = .error f ↔ b.raw = 0 ∧ f = .moduloByZero) ∧
    a.truncate = towardZero (a.raw / 10000) ∧
    ∀ x, (rawMin ≤ intoRange x ∧ intoRange x ≤ rawMax) ∧
      (rawMin ≤ x → x ≤ rawMax → intoRange x = x) :=
  ⟨⟨raw_ofRaw_eq _, raw_ofRaw_eq _, raw_mul a b, raw_ofRaw_eq _, raw_abs a⟩, div_eq_ok a,
    div_eq_error a b, mod_eq_error a b, truncate_eq_towardZero a, intoRange_bounds⟩

/-- Minus three units by two is minus one and a half, of which the half is dropped. -/
theorem arithmetic_exact_negativeQuotient :
    (ofRaw 20000).raw ≠ 0 ∧ ∃ c, (ofRaw (-3)).div (ofRaw 20000) = .ok c ∧ c.raw = -1 := by
  have hdivisor : (ofRaw 20000).raw ≠ 0 := by decide
  obtain ⟨c, hdiv, hraw⟩ := (arithmetic_exact (ofRaw (-3)) (ofRaw 20000)).2.1 hdivisor
  have hquotient : ((ofRaw (-3)).raw * 10000 / (ofRaw 20000).raw : ℚ) = -(3 / 2) := by
    norm_num [clamp, rawMin, rawMax]
  have hrounded : towardZero (-(3 / 2)) = -1 := by
    rw [towardZero_neg, towardZero_of_nonneg (by norm_num)]
    norm_num
  rw [hquotient, hrounded] at hraw
  exact ⟨hdivisor, c, hdiv, hraw⟩

end Yolol.Number

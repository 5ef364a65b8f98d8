-- SUMMARY: The factorial with an early exit is the exact one, moved into the range.
import Mathlib.Data.Nat.Factorial.Basic
import Yolol.Proofs.Remainder
import Yolol.Run.Operation

/-!
# Factorials

When the loop comes to a factor, its product is the factorial of the number in front of it. It
leaves at the first product beyond the greatest number, where it gives the greatest number.
Factorials only grow, so the factorial of the operand is out of range then as well, however far
the operand is. No operand takes more than seventeen multiplications, since the factorial of
eighteen is out of range already.
-/

namespace Yolol.Number

open scoped Nat

/-! ## The loop -/

/-- The product so far is the factorial of the number in front of the next factor. -/
theorem risingProduct_factorial (k count : ℕ) (hfits : (k ! : ℕ) * scale ≤ rawMax) :
    risingProduct k ! (k + 1) count =
      if ((k + count)! : ℕ) * scale ≤ rawMax then some (k + count)! else none := by
  induction count generalizing k with
  | zero => rw [risingProduct, Nat.add_zero, if_pos hfits]
  | succ count ih =>
    have hnext : k ! * (k + 1) = (k + 1)! := by rw [Nat.factorial_succ, Nat.mul_comm]
    have hsum : k + 1 + count = k + (count + 1) := by omega
    rw [risingProduct, hnext]
    split
    · next hover =>
      have hgrows : (k + 1)! ≤ (k + (count + 1))! := Nat.factorial_le (by omega)
      have hbeyond : ¬ ((k + (count + 1))! : ℕ) * scale ≤ rawMax := by
        simp only [scale] at hover ⊢
        omega
      rw [if_neg hbeyond]
    · next hfits' =>
      rw [ih (k + 1) (by omega), hsum]

/-- `risingProduct`, and how many products it computes before it leaves. -/
def countedProduct (product factor : ℕ) : (count : ℕ) → Option ℕ × ℕ
  | 0 => (some product, 0)
  | count + 1 =>
    if rawMax < (product * factor : ℕ) * scale then (none, 1)
    else
      let later := countedProduct (product * factor) (factor + 1) count
      (later.1, later.2 + 1)

theorem fst_countedProduct (product factor count : ℕ) :
    (countedProduct product factor count).1 = risingProduct product factor count := by
  induction count generalizing product factor with
  | zero => rfl
  | succ count ih =>
    rw [countedProduct, risingProduct]
    split
    · rfl
    · exact ih ..

/-- The loop leaves when it has used all its factors, or with the factorial of eighteen, which
    is the first one out of range. -/
theorem snd_countedProduct {k : ℕ} (hk : k ≤ 17) (count : ℕ) :
    (countedProduct k ! (k + 1) count).2 = min count (18 - k) := by
  induction count generalizing k with
  | zero => exact (Nat.zero_min _).symm
  | succ count ih =>
    have hnext : k ! * (k + 1) = (k + 1)! := by rw [Nat.factorial_succ, Nat.mul_comm]
    rw [countedProduct, hnext]
    split
    · next hover =>
      have hlast : k = 17 := by
        by_contra hearlier
        have hgrows : (k + 1)! ≤ 17 ! := Nat.factorial_le (by omega)
        have hfits : ((17 ! : ℕ) : ℤ) * scale ≤ rawMax := by decide
        simp only [scale] at hover hfits
        omega
      show 1 = min (count + 1) (18 - k)
      omega
    · next hfits =>
      have hearlier : k ≠ 17 := by
        rintro rfl
        exact hfits (by decide)
      have hlater := ih (k := k + 1) (by omega)
      show (countedProduct (k + 1)! (k + 1 + 1) count).2 + 1 = min (count + 1) (18 - k)
      omega

/-! ## Operands -/

/-- `factorial?`, and how many multiplications its loop makes. -/
def countedFactorial (n : Number) : Option Number × ℕ :=
  if n.raw = rawMax then (some n, 0)
  else if n.raw < 0 || !n.isWhole then (none, 0)
  else
    let loop := countedProduct 1 2 (n.truncate.toNat - 1)
    (some (match loop.1 with | some product => ofInt product | none => greatest), loop.2)

theorem fst_countedFactorial (a : Number) : a.countedFactorial.1 = a.factorial? := by
  unfold countedFactorial factorial?
  split
  · rfl
  · split
    · rfl
    · dsimp only
      rw [fst_countedProduct]
      cases risingProduct 1 2 (a.truncate.toNat - 1) <;> rfl

theorem isWhole_iff (a : Number) : a.isWhole = true ↔ 10000 ∣ a.raw := by
  rw [isWhole, beq_iff_eq, scale, Int.dvd_iff_emod_eq_zero]

/-- The operands whose factorial the loop computes. -/
theorem operand_cases {a : Number} (hnonneg : 0 ≤ a.raw) (hwhole : 10000 ∣ a.raw) :
    a.raw ≠ rawMax ∧ ¬ (decide (a.raw < 0) || !a.isWhole) = true ∧
      a.truncate.toNat = (a.raw / 10000).toNat := by
  refine ⟨?_, ?_, ?_⟩
  · unfold rawMax
    omega
  · simp [(isWhole_iff a).mpr hwhole, hnonneg]
  · rw [truncate, quotient_eq_tdiv, scale, Int.tdiv_eq_ediv_of_nonneg hnonneg]

theorem snd_countedFactorial {a : Number} (hnonneg : 0 ≤ a.raw) (hwhole : 10000 ∣ a.raw) :
    a.countedFactorial.2 = min ((a.raw / 10000).toNat - 1) 17 := by
  obtain ⟨hsmaller, hoperand, htruncate⟩ := operand_cases hnonneg hwhole
  rw [countedFactorial, if_neg hsmaller, if_neg hoperand, htruncate]
  exact snd_countedProduct (by decide : 1 ≤ 17) _

theorem snd_countedFactorial_le (a : Number) : a.countedFactorial.2 ≤ 17 := by
  unfold countedFactorial
  split
  · exact Nat.zero_le _
  · split
    · exact Nat.zero_le _
    · exact (snd_countedProduct (by decide : 1 ≤ 17) _).trans_le (Nat.min_le_right _ _)

/-- A whole number that is not negative has a factorial, which is moved into the range. -/
theorem factorial?_of_whole {a : Number} (hnonneg : 0 ≤ a.raw) (hwhole : 10000 ∣ a.raw) :
    ∃ b, a.factorial? = some b ∧ b.raw = min rawMax ((a.raw / 10000).toNat ! * 10000) := by
  obtain ⟨hsmaller, hoperand, htruncate⟩ := operand_cases hnonneg hwhole
  rw [factorial?, if_neg hsmaller, if_neg hoperand, htruncate]
  generalize (a.raw / 10000).toNat = n
  have hfactorial : (1 + (n - 1))! = n ! := by
    cases n with
    | zero => rfl
    | succ n => rw [Nat.add_sub_cancel, Nat.add_comm]
  have hloop : risingProduct 1 2 (n - 1) =
      if (n ! : ℕ) * scale ≤ rawMax then some n ! else none := by
    rw [← hfactorial]
    exact risingProduct_factorial 1 (n - 1) (by decide)
  have hscaled : (n ! : ℕ) * scale = n ! * 10000 := rfl
  rw [hloop, hscaled]
  by_cases hfits : (n ! * 10000 : ℤ) ≤ rawMax
  · rw [if_pos hfits]
    refine ⟨ofInt n !, rfl, ?_⟩
    have hinside : rawMin ≤ (n ! : ℤ) * 10000 := by
      unfold rawMin
      omega
    rw [ofInt, raw_ofRaw, hscaled, clamp_eq_self hinside hfits, min_eq_right hfits]
  · rw [if_neg hfits]
    refine ⟨greatest, rfl, ?_⟩
    rw [min_eq_left (by omega)]
    decide

/-- Every other operand but the greatest number has no factorial. -/
theorem factorial?_eq_none {a : Number} (hsmaller : a.raw ≠ rawMax)
    (hoperand : ¬ (0 ≤ a.raw ∧ 10000 ∣ a.raw)) : a.factorial? = none := by
  have hrefused : (decide (a.raw < 0) || !a.isWhole) = true := by
    rw [← isWhole_iff] at hoperand
    grind
  rw [factorial?, if_neg hsmaller, if_pos hrefused]

end Yolol.Number

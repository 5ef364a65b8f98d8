-- SUMMARY: Numbers are read back from the literals that they are written with.
import Mathlib.Algebra.Group.Nat.Defs
import Mathlib.Data.List.Basic
import Mathlib.Data.List.TakeWhile
import Yolol.Number.Literal
import Yolol.Proofs.Lexical

/-!
# Literals of numbers

The literals that source text can hold are numerals with an optional fraction. Their
value is that of their digits, and the literal of a number has the value of the number.
-/

namespace Yolol

/-! ## Numerals -/

namespace Decimal

/-- The number that numerals denote. -/
def ofNumerals (cs : List Char) : Nat := value (cs.map fun c => c.toNat - 48)

theorem ofNumerals_append_singleton (cs : List Char) (c : Char) :
    ofNumerals (cs ++ [c]) = 10 * ofNumerals cs + (c.toNat - 48) := by
  simp [ofNumerals, value]

theorem toNat_digitChar {d : Nat} (h : d < 10) : (digitChar d).toNat = 48 + d := by
  match d with
  | 0 | 1 | 2 | 3 | 4 | 5 | 6 | 7 | 8 | 9 => rfl
  | d + 10 => omega

theorem isNumeral_digitChar {d : Nat} (h : d < 10) : Token.isNumeral (digitChar d) = true := by
  match d with
  | 0 | 1 | 2 | 3 | 4 | 5 | 6 | 7 | 8 | 9 => rfl
  | d + 10 => omega

theorem digits_ne_nil (n : Nat) : digits n ≠ [] := by
  unfold digits
  split <;> simp

theorem forall_mem_digits (n : Nat) : ∀ c ∈ digits n, Token.isNumeral c = true := by
  fun_induction digits n with
  | case1 n h => exact List.forall_mem_singleton.mpr (isNumeral_digitChar h)
  | case2 n h ih =>
    refine List.forall_mem_append.mpr ⟨ih, List.forall_mem_singleton.mpr ?_⟩
    exact isNumeral_digitChar (Nat.mod_lt n (by decide))

theorem ofNumerals_digits (n : Nat) : ofNumerals (digits n) = n := by
  fun_induction digits n with
  | case1 n h => simp [ofNumerals, value, toNat_digitChar h]
  | case2 n h ih =>
    rw [ofNumerals_append_singleton, ih, toNat_digitChar (Nat.mod_lt n (by decide))]
    omega

theorem div_ten_lt {n width : Nat} (h : n < 10 ^ (width + 1)) : n / 10 < 10 ^ width := by
  rw [Nat.pow_succ] at h
  exact Nat.div_lt_of_lt_mul (by omega)

theorem length_digits_le {n width : Nat} (h : n < 10 ^ (width + 1)) :
    (digits n).length ≤ width + 1 := by
  induction width generalizing n with
  | zero =>
    rw [digits, if_pos (by simpa using h)]
    simp
  | succ width ih =>
    unfold digits
    split
    · simp
    · simpa using ih (div_ten_lt h)

theorem length_padded (width n : Nat) : (padded width n).length = width := by
  induction width generalizing n with
  | zero => rfl
  | succ width ih => simp [padded, ih]

theorem forall_mem_padded (width n : Nat) : ∀ c ∈ padded width n, Token.isNumeral c = true := by
  induction width generalizing n with
  | zero => simp [padded]
  | succ width ih =>
    refine List.forall_mem_append.mpr ⟨ih (n / 10), List.forall_mem_singleton.mpr ?_⟩
    exact isNumeral_digitChar (Nat.mod_lt n (by decide))

theorem ofNumerals_padded {width n : Nat} (h : n < 10 ^ width) :
    ofNumerals (padded width n) = n := by
  induction width generalizing n with
  | zero =>
    obtain rfl : n = 0 := by simpa using h
    rfl
  | succ width ih =>
    rw [padded, ofNumerals_append_singleton, ih (div_ten_lt h),
      toNat_digitChar (Nat.mod_lt n (by decide))]
    omega

end Decimal

/-! ## Characters -/

section Characters

variable {c : Char}

theorem Text.decimalValue?_numeral (h : Token.isNumeral c = true) :
    Text.decimalValue? c = some (c.toNat - 48) := by
  have hrange := Token.toNat_of_isNumeral h
  simp [Text.decimalValue?, Text.decimalZeros, hrange.1, Nat.lt_succ_of_le hrange.2]

theorem Text.isDecimal_numeral (h : Token.isNumeral c = true) : Text.isDecimal c = true := by
  simp [Text.isDecimal, Text.decimalValue?_numeral h]

theorem Text.isBlank_numeral (h : Token.isNumeral c = true) : Text.isBlank c = false := by
  have hrange := Token.toNat_of_isNumeral h
  simp only [Text.isBlank, Bool.or_eq_false_iff, Bool.and_eq_false_iff, decide_eq_false_iff_not,
    beq_eq_false_iff_ne]
  omega

theorem Number.isSign_numeral (h : Token.isNumeral c = true) : Number.isSign c = false := by
  rcases hsign : Number.isSign c with _ | _
  · rfl
  · simp only [Number.isSign, Bool.or_eq_true, beq_iff_eq] at hsign
    rcases hsign with rfl | rfl <;> cases h

end Characters

/-! ## Reading -/

namespace Number

theorem readDigits_numerals {cs : List Char} (h : ∀ c ∈ cs, Token.isNumeral c = true)
    (hlength : cs.length ≤ maxDigits) : readDigits cs = .ok (Decimal.ofNumerals cs) := by
  have hall : cs.takeWhile Text.isDecimal = cs :=
    List.takeWhile_eq_self_iff.mpr fun c hc => Text.isDecimal_numeral (h c hc)
  have hvalues : cs.filterMap Text.decimalValue? = cs.map fun c => c.toNat - 48 := by
    rw [← List.filterMap_eq_map']
    exact List.filterMap_congr fun c hc => Text.decimalValue?_numeral (h c hc)
  simp [readDigits, hall, Nat.not_lt.mpr hlength, hvalues, Decimal.ofNumerals]

theorem fourPlaces_numerals {cs : List Char} (h : ∀ c ∈ cs, Token.isNumeral c = true) :
    ∀ c ∈ fourPlaces cs, Token.isNumeral c = true := by
  intro c hc
  rcases List.mem_append.mp (List.mem_of_mem_take hc) with hc | hc
  · exact h c hc
  · obtain ⟨-, rfl⟩ := List.mem_replicate.mp hc
    rfl

theorem strip_eq_self {cs : List Char} (h : ∀ c ∈ cs, Text.isBlank c = false) :
    Text.strip cs = cs := by
  have hfront {as : List Char} (has : ∀ c ∈ as, Text.isBlank c = false) :
      as.dropWhile Text.isBlank = as := by
    cases as with
    | nil => rfl
    | cons a as => rw [List.dropWhile_cons_of_neg (by simp [has a List.mem_cons_self])]
  rw [Text.strip, hfront h, Text.dropEnd, hfront fun c hc => h c (List.mem_reverse.mp hc),
    List.reverse_reverse]

/-- How numerals with a fraction are written; without a fraction there is no point. -/
inductive Written (whole : List Char) : List Char → List Char → Prop where
  | whole : Written whole [] whole
  | point {places} : Written whole places (whole ++ '.' :: places)

theorem Written.splitPoint {whole places cs : List Char} (h : Written whole places cs)
    (hwhole : ∀ c ∈ whole, Token.isNumeral c = true) : splitPoint cs = (whole, places) := by
  have hplain : ∀ c ∈ whole, (c != '.') = true := by
    intro c hc
    have hnumeral := hwhole c hc
    cases hpoint : c != '.' with
    | true => rfl
    | false =>
      obtain rfl : c = '.' := by simpa using hpoint
      cases hnumeral
  cases h with
  | whole =>
    simp [Number.splitPoint, List.takeWhile_eq_self_iff.mpr hplain,
      List.dropWhile_eq_nil_iff.mpr hplain]
  | point =>
    simp [Number.splitPoint, List.takeWhile_append_of_pos hplain,
      List.dropWhile_append_of_pos hplain]

theorem Written.not_blank {whole places cs : List Char} (h : Written whole places cs)
    (hwhole : ∀ c ∈ whole, Token.isNumeral c = true)
    (hplaces : ∀ c ∈ places, Token.isNumeral c = true) : ∀ c ∈ cs, Text.isBlank c = false := by
  have hblank {as : List Char} (has : ∀ c ∈ as, Token.isNumeral c = true) :
      ∀ c ∈ as, Text.isBlank c = false := fun c hc => Text.isBlank_numeral (has c hc)
  cases h with
  | whole => exact hblank hwhole
  | point =>
    exact List.forall_mem_append.mpr
      ⟨hblank hwhole, List.forall_mem_cons.mpr ⟨rfl, hblank hplaces⟩⟩

/-- A literal of numerals denotes its value, cut after the fourth place. -/
theorem ofLiteral_numerals {whole places cs : List Char} (negative : Bool)
    (h : Written whole places cs) (hwhole : ∀ c ∈ whole, Token.isNumeral c = true)
    (hnonempty : whole ≠ []) (hlength : whole.length ≤ maxDigits)
    (hplaces : ∀ c ∈ places, Token.isNumeral c = true) :
    ofLiteral (String.ofList (if negative then '-' :: cs else cs)) =
      let units : Int := Decimal.ofNumerals whole * scale + Decimal.ofNumerals (fourPlaces places)
      .ok (ofRaw (if negative then -units else units)) := by
  obtain ⟨d, ds, rfl⟩ := List.exists_cons_of_ne_nil hnonempty
  have hfirst : cs.head? = some d := by cases h <;> rfl
  obtain ⟨as, rfl⟩ := List.head?_eq_some_iff.mp hfirst
  have hd : Token.isNumeral d = true := hwhole d List.mem_cons_self
  have hsign : isSign d = false := isSign_numeral hd
  have hminus : d ≠ '-' := by rintro rfl; cases hd
  have hstrip : Text.strip (if negative then '-' :: d :: as else d :: as) =
      if negative then '-' :: d :: as else d :: as := by
    apply strip_eq_self
    cases negative with
    | true => exact List.forall_mem_cons.mpr ⟨rfl, h.not_blank hwhole hplaces⟩
    | false => exact h.not_blank hwhole hplaces
  have hunsigned : (if negative then '-' :: d :: as else d :: as).dropWhile isSign = d :: as := by
    cases negative with
    | true =>
      rw [if_pos rfl, List.dropWhile_cons_of_pos rfl, List.dropWhile_cons_of_neg (by simp [hsign])]
    | false => rw [if_neg (by simp), List.dropWhile_cons_of_neg (by simp [hsign])]
  have hdigits : ((d :: ds) ++ places).all Text.isDigit = true := by
    apply List.all_eq_true.mpr
    intro c hc
    have hnumeral := List.forall_mem_append.mpr ⟨hwhole, hplaces⟩ c hc
    simp [Text.isDigit, Text.isDecimal_numeral hnumeral]
  have hplacesLength : (fourPlaces places).length ≤ maxDigits := by
    rw [fourPlaces, List.length_take]
    exact Nat.le_trans (Nat.min_le_left _ _) (by decide)
  have hhead : (if negative then '-' :: d :: as else d :: as).head? = some '-' ↔
      negative = true := by
    cases negative <;> simp [hminus]
  simp only [ofLiteral, String.toList_ofList, hstrip, hunsigned, h.splitPoint hwhole, hdigits,
    readDigits_numerals hwhole hlength,
    readDigits_numerals (fourPlaces_numerals hplaces) hplacesLength, hhead]
  rfl

/-! ## Writing -/

theorem dropEnd_append (p : Char → Bool) (cs : List Char) :
    Text.dropEnd p cs ++ (cs.reverse.takeWhile p).reverse = cs := by
  rw [Text.dropEnd, ← List.reverse_append, List.takeWhile_append_dropWhile, List.reverse_reverse]

/-- Trailing zeros that were dropped are put back. -/
theorem fourPlaces_dropEnd {cs : List Char} (h : cs.length = 4) :
    fourPlaces (Text.dropEnd (· == '0') cs) = cs := by
  have hsplit := dropEnd_append (· == '0') cs
  obtain ⟨count, hzeros⟩ : ∃ count, (cs.reverse.takeWhile (· == '0')).reverse =
      List.replicate count '0' := by
    refine ⟨_, List.eq_replicate_length.mpr fun c hc => ?_⟩
    simpa using List.mem_takeWhile_imp (List.mem_reverse.mp hc)
  rw [hzeros] at hsplit
  have hlength : (Text.dropEnd (· == '0') cs).length + count = 4 := by
    simpa [h] using congrArg List.length hsplit
  rw [fourPlaces, List.take_append, List.take_of_length_le (by omega), List.take_replicate]
  have hcount : min (4 - (Text.dropEnd (· == '0') cs).length) 4 = count := by omega
  rw [hcount, hsplit]

/-- The places that the literal of a number shows. -/
def shownPlaces (units : Nat) : List Char :=
  if units = 0 then [] else Text.dropEnd (· == '0') (Decimal.padded 4 units)

theorem forall_mem_shownPlaces (units : Nat) :
    ∀ c ∈ shownPlaces units, Token.isNumeral c = true := by
  intro c hc
  unfold shownPlaces at hc
  split at hc
  · cases hc
  · apply Decimal.forall_mem_padded 4 units c
    rw [← dropEnd_append (· == '0') (Decimal.padded 4 units)]
    exact List.mem_append_left _ hc

theorem ofNumerals_shownPlaces {units : Nat} (h : units < 10000) :
    Decimal.ofNumerals (fourPlaces (shownPlaces units)) = units := by
  unfold shownPlaces
  split
  · next hzero => rw [hzero]; rfl
  · rw [fourPlaces_dropEnd (Decimal.length_padded 4 units)]
    exact Decimal.ofNumerals_padded h

theorem shownPlaces_ne_nil {units : Nat} (h : units < 10000) (hne : units ≠ 0) :
    shownPlaces units ≠ [] := by
  intro hempty
  have hvalue := ofNumerals_shownPlaces h
  rw [hempty] at hvalue
  exact hne hvalue.symm

/-- The literal of a number without its sign. -/
theorem exists_written (n : Number) :
    ∃ cs, n.toChars = (if n.raw < 0 then '-' :: cs else cs) ∧
      Written (Decimal.digits (n.raw.natAbs / 10000)) (shownPlaces (n.raw.natAbs % 10000)) cs := by
  refine ⟨Decimal.digits (n.raw.natAbs / 10000) ++ placesChars (n.raw.natAbs % 10000), ?_, ?_⟩
  · unfold toChars
    split <;> rfl
  · rw [placesChars, shownPlaces]
    split
    · rw [List.append_nil]
      exact .whole
    · exact .point

/-- The literal of a number denotes it. -/
theorem ofLiteral_toLiteral (n : Number) : ofLiteral n.toLiteral = .ok n := by
  obtain ⟨cs, hchars, hwritten⟩ := n.exists_written
  have hlength : (Decimal.digits (n.raw.natAbs / 10000)).length ≤ maxDigits := by
    have hbound : n.raw.natAbs / 10000 < 10 ^ (18 + 1) := by
      have hmin := n.rawMin_le
      have hmax := n.le_rawMax
      unfold rawMin at hmin
      unfold rawMax at hmax
      omega
    exact Nat.le_trans (Decimal.length_digits_le hbound) (by decide)
  have hread := ofLiteral_numerals (decide (n.raw < 0)) hwritten (Decimal.forall_mem_digits _)
    (Decimal.digits_ne_nil _) hlength (forall_mem_shownPlaces _)
  simp only [decide_eq_true_eq, ← hchars, Decimal.ofNumerals_digits,
    ofNumerals_shownPlaces (Nat.mod_lt _ (by decide : 0 < 10000))] at hread
  have hraw : (if n.raw < 0 then -(((n.raw.natAbs / 10000 : Nat) : Int) * scale
      + ((n.raw.natAbs % 10000 : Nat) : Int)) else ((n.raw.natAbs / 10000 : Nat) : Int) * scale
      + ((n.raw.natAbs % 10000 : Nat) : Int)) = n.raw := by
    unfold scale
    omega
  rw [toLiteral, hread, hraw, ofRaw_raw]

/-- The literal of a number that is not negative is one that source text can hold. -/
theorem isNumberText_toChars {n : Number} (h : 0 ≤ n.raw) :
    Token.isNumberText n.toChars = true := by
  have hdigits := Decimal.forall_mem_digits (n.raw.natAbs / 10000)
  have hunits := Nat.mod_lt n.raw.natAbs (by decide : 0 < 10000)
  have hplaces := forall_mem_shownPlaces (n.raw.natAbs % 10000)
  rw [toChars, if_neg (by omega), List.nil_append, Token.isNumberText,
    List.dropWhile_append_of_pos hdigits, List.takeWhile_append_of_pos hdigits, placesChars]
  by_cases hzero : n.raw.natAbs % 10000 = 0
  · simp [hzero, Decimal.digits_ne_nil]
  · have hne := shownPlaces_ne_nil hunits hzero
    simp only [shownPlaces, hzero, if_false] at hne hplaces
    simpa [hzero, Token.isNumeral, Decimal.digits_ne_nil, hne] using hplaces

theorem clamp_nonneg {raw : Int} (h : 0 ≤ raw) : 0 ≤ clamp raw := by
  unfold clamp rawMax rawMin
  omega

/-- A number in source text is not negative. -/
theorem nonneg_of_isNumberText {text : String} {n : Number}
    (htext : Token.isNumberText text.toList = true) (h : ofLiteral text = .ok n) : 0 ≤ n.raw := by
  obtain ⟨c, ds, hc, hds, hform⟩ := Token.isNumberText_cases htext
  have hfirst : text.toList.head? = some c := by
    rcases hform with hform | ⟨places, hform, -⟩ <;> rw [hform] <;> rfl
  have hwhole : ∀ d ∈ c :: ds, Token.isNumeral d = true := List.forall_mem_cons.mpr ⟨hc, hds⟩
  have hblank : ∀ d ∈ text.toList, Text.isBlank d = false := by
    rcases hform with hform | ⟨places, hform, -, hplaces⟩
    · rw [hform]
      exact Written.whole.not_blank hwhole (by simp)
    · rw [hform]
      exact Written.point.not_blank hwhole hplaces
  have hminus : c ≠ '-' := by rintro rfl; cases hc
  unfold ofLiteral at h
  simp only [strip_eq_self hblank, hfirst, Option.some.injEq, hminus, if_false] at h
  split at h
  · cases h
  split at h
  · cases h
  split at h
  · cases h
  · cases h
    apply clamp_nonneg
    unfold scale
    omega

end Number

end Yolol

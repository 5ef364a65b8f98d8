-- SUMMARY: Numbers are written as canonical decimals of their exact value.
import Yolol.Proofs.DecimalValue
import Yolol.Proofs.Scanning

/-!
# Canonical texts of numbers

A number is written without zeros in front of its whole part and behind its places, and with
a minus sign only if it is negative. The text denotes the number exactly, so it is read back
as the same number, and as a single token if it has no sign.
-/

namespace Yolol

-- ---------------------------------------------------------------------------
-- Zeros at the ends
-- ---------------------------------------------------------------------------

namespace Decimal

theorem digits_zero : digits 0 = ['0'] := by
  rw [digits, if_pos (by decide)]
  rfl

theorem digitChar_ne_zero {d : Nat} (hpos : 0 < d) (h : d < 10) : digitChar d ≠ '0' := by
  intro hzero
  have hcode := toNat_digitChar h
  rw [hzero] at hcode
  have hcode : 48 = 48 + d := hcode
  omega

/-- The numeral of a positive number does not start with a zero. -/
theorem head?_digits_ne_zero {n : Nat} (h : 0 < n) : (digits n).head? ≠ some '0' := by
  fun_induction digits n with
  | case1 n hsmall =>
    intro hzero
    exact digitChar_ne_zero h hsmall (Option.some.inj hzero)
  | case2 n hlarge ih =>
    rw [List.head?_append_of_ne_nil _ (digits_ne_nil _)]
    exact ih (by omega)

end Decimal

namespace Text

theorem length_dropEnd_le (p : Char → Bool) (cs : List Char) : (dropEnd p cs).length ≤ cs.length := by
  rw [dropEnd, List.length_reverse, ← cs.length_reverse]
  exact List.length_dropWhile_le _ _

/-- What was dropped from the end does not stand there any more. -/
theorem getLast?_dropEnd {p : Char → Bool} {cs : List Char} {c : Char}
    (h : (dropEnd p cs).getLast? = some c) : p c = false := by
  rw [dropEnd, List.getLast?_reverse] at h
  have hnot := List.head?_dropWhile_not p cs.reverse
  rw [h] at hnot
  simpa using hnot

end Text

namespace Number

-- ---------------------------------------------------------------------------
-- The decimal that is written
-- ---------------------------------------------------------------------------

/-- The decimal as which a number is written. -/
def decimal (n : Number) : DecimalText where
  negative := n.raw < 0
  whole := Decimal.digits (n.raw.natAbs / 10000)
  places :=
    if n.raw.natAbs % 10000 = 0 then none else some (shownPlaces (n.raw.natAbs % 10000))
  whole_ne_nil := Decimal.digits_ne_nil _
  places_ne_nil := by
    have hunits := Nat.mod_lt n.raw.natAbs (by decide : 0 < 10000)
    split
    · simp
    · next hne =>
      intro hnil
      exact shownPlaces_ne_nil hunits hne (Option.some.inj hnil)
  isNumeral_whole := Decimal.forall_mem_digits _
  isNumeral_places := by
    split
    · simp
    · exact forall_mem_shownPlaces _

theorem places_decimal (n : Number) :
    n.decimal.places.getD [] = shownPlaces (n.raw.natAbs % 10000) := by
  simp only [decimal]
  split_ifs with hzero
  · simp [shownPlaces, hzero]
  · rfl

theorem chars_decimal (n : Number) : n.decimal.chars = n.toChars := by
  have hbody : n.decimal.body =
      Decimal.digits (n.raw.natAbs / 10000) ++ placesChars (n.raw.natAbs % 10000) := by
    unfold DecimalText.body decimal placesChars
    split_ifs with hzero
    · exact (List.append_nil _).symm
    · simp [shownPlaces, hzero]
  rw [DecimalText.chars, hbody, toChars]
  by_cases hneg : n.raw < 0 <;> simp [decimal, hneg]

/-- Places that are not cut denote their units exactly. -/
theorem ofNumerals_div {cs : List Char} (h : cs.length ≤ 4) :
    (Decimal.ofNumerals cs / 10 ^ cs.length : ℚ) = Decimal.ofNumerals (fourPlaces cs) / 10000 := by
  have hpadded : fourPlaces cs = cs ++ List.replicate (4 - cs.length) '0' := by
    rw [fourPlaces, List.take_append, List.take_of_length_le h, List.take_replicate]
    congr 2
    omega
  have hscale : (10 : ℚ) ^ cs.length * 10 ^ (4 - cs.length) = 10000 := by
    rw [← pow_add, Nat.add_sub_cancel' h]
    norm_num
  rw [hpadded, Decimal.ofNumerals_append, Decimal.ofNumerals_zeros, List.length_replicate,
    ← hscale]
  push_cast
  field_simp
  ring

theorem length_shownPlaces_le (units : Nat) : (shownPlaces units).length ≤ 4 := by
  unfold shownPlaces
  split
  · exact Nat.zero_le _
  · exact (Text.length_dropEnd_le _ _).trans_eq (Decimal.length_padded 4 units)

theorem magnitude_decimal (n : Number) : n.decimal.magnitude = n.raw.natAbs / 10000 := by
  have hunits := Nat.mod_lt n.raw.natAbs (by decide : 0 < 10000)
  have hsplit : ((10000 * (n.raw.natAbs / 10000) + n.raw.natAbs % 10000 : ℕ) : ℚ) = n.raw.natAbs :=
    congrArg _ (Nat.div_add_mod n.raw.natAbs 10000)
  have hwhole : Decimal.ofNumerals n.decimal.whole = n.raw.natAbs / 10000 :=
    Decimal.ofNumerals_digits _
  rw [DecimalText.magnitude_eq, places_decimal, ofNumerals_div (length_shownPlaces_le _),
    ofNumerals_shownPlaces hunits, hwhole, ← hsplit]
  push_cast
  ring

/-- What is written denotes the number exactly. -/
theorem value_decimal (n : Number) : n.decimal.value = n.raw / 10000 := by
  rw [DecimalText.value, magnitude_decimal, Nat.cast_natAbs]
  by_cases hneg : n.raw < 0
  · have hsign : n.decimal.negative = true := decide_eq_true hneg
    rw [if_pos hsign, abs_of_neg hneg]
    push_cast
    ring
  · have hsign : ¬ n.decimal.negative = true := by simpa [decimal] using hneg
    rw [if_neg hsign, abs_of_nonneg (Int.not_lt.mp hneg)]

/-- The whole part is zero or starts with another digit, and there are at most four places,
    of which the last is not zero. -/
structure DecimalText.Canonical (d : DecimalText) : Prop where
  whole : d.whole = ['0'] ∨ d.whole.head? ≠ some '0'
  places : ∀ places, d.places = some places → places.length ≤ 4 ∧ places.getLast? ≠ some '0'

theorem canonical_decimal (n : Number) : n.decimal.Canonical where
  whole := by
    rcases (n.raw.natAbs / 10000).eq_zero_or_pos with hzero | hpos
    · left
      simp only [decimal, hzero, Decimal.digits_zero]
    · exact .inr (Decimal.head?_digits_ne_zero hpos)
  places := by
    intro places hplaces
    have hshown : shownPlaces (n.raw.natAbs % 10000) = places := by
      rw [← places_decimal, hplaces, Option.getD_some]
    subst hshown
    refine ⟨length_shownPlaces_le _, fun hlast => ?_⟩
    unfold shownPlaces at hlast
    split at hlast
    · cases hlast
    · cases Text.getLast?_dropEnd hlast

-- ---------------------------------------------------------------------------
-- The token
-- ---------------------------------------------------------------------------

/-- The text of a number is scanned as one token. -/
theorem scan_number {w : List Char} (h : Token.isNumberText w = true) :
    Token.scan (String.ofList w) =
      .ok [{ kind := .number, text := some (String.ofList w), position := ⟨1, 1⟩ }] := by
  have hend : Token.Parted [] := by
    intro c hc
    cases hc
  obtain ⟨c, ws, rfl, hlexeme⟩ := Token.lexeme?_number h hend
  rw [List.append_nil] at hlexeme
  simp [Token.scan, Token.scanFrom, hlexeme, Token.Lexeme.tokens]

/-- A number is written as a canonical decimal of its exact value, with a minus sign exactly
    if it is negative. The text is read back as the number and as no other, and if it has no
    sign, it is a single token. -/
theorem toLiteral_canonical (n : Number) :
    (∃ d : DecimalText, d.text = n.toLiteral ∧ d.Canonical ∧
      (d.negative = true ↔ n.raw < 0) ∧ d.value = n.raw / 10000) ∧
    ofLiteral n.toLiteral = .ok n ∧
    (∀ m : Number, m.toLiteral = n.toLiteral ↔ m = n) ∧
    (0 ≤ n.raw → Token.scan n.toLiteral =
      .ok [{ kind := .number, text := some n.toLiteral, position := ⟨1, 1⟩ }]) := by
  refine ⟨⟨n.decimal, ?_, n.canonical_decimal, decide_eq_true_iff, n.value_decimal⟩,
    n.ofLiteral_toLiteral, fun m => ⟨fun hsame => ?_, congrArg toLiteral⟩, fun hnonneg => ?_⟩
  · rw [DecimalText.text, chars_decimal, toLiteral]
  · have hread := m.ofLiteral_toLiteral
    rw [hsame, n.ofLiteral_toLiteral] at hread
    exact (Except.ok.inj hread).symm
  · exact scan_number (isNumberText_toChars hnonneg)

theorem toLiteral_greatest : greatest.toLiteral = "922337203685477.5807" := by
  have hraw : greatest.raw = 9223372036854775807 := by decide
  have hchars : greatest.toChars = "922337203685477.5807".toList := by
    simp [toChars, hraw, placesChars, Decimal.digits, Decimal.digitChar, Decimal.padded,
      Text.dropEnd]
  rw [toLiteral, hchars, String.ofList_toList]

/-- The greatest number is one token. -/
theorem toLiteral_canonical_greatest :
    0 ≤ greatest.raw ∧ greatest.toLiteral = "922337203685477.5807" ∧
      Token.scan "922337203685477.5807" =
        .ok [{ kind := .number, text := some "922337203685477.5807", position := ⟨1, 1⟩ }] := by
  have hnonneg : 0 ≤ greatest.raw := by decide
  obtain ⟨-, -, -, hscan⟩ := toLiteral_canonical greatest
  exact ⟨hnonneg, toLiteral_greatest, toLiteral_greatest ▸ hscan hnonneg⟩

end Number

end Yolol

-- SUMMARY: A literal denotes its exact decimal value, cut to four places and to the range.
import Mathlib.Data.Nat.Digits.Defs
import Mathlib.Tactic.FieldSimp
import Yolol.Proofs.Arithmetic
import Yolol.Proofs.NumberText

/-!
# The decimals that literals denote

A decimal text has digits that count powers of ten before the point and powers of a tenth
behind it. Reading it pads or cuts the digits behind the point to four, which rounds the
exact value toward zero in units. The sign is put in front before the number saturates.
-/

namespace Yolol

namespace Decimal

/-- The values of digits. -/
def digitValues (cs : List Char) : List ℕ := cs.map fun c => c.toNat - 48

/-- Digits that follow each other count powers of ten, the last one the least. -/
theorem ofNumerals_eq_ofDigits (cs : List Char) :
    ofNumerals cs = Nat.ofDigits 10 (digitValues cs).reverse := by
  induction cs using List.reverseRecOn with
  | nil => rfl
  | append_singleton cs c ih =>
    have hlast : (digitValues (cs ++ [c])).reverse = (c.toNat - 48) :: (digitValues cs).reverse := by
      simp [digitValues]
    rw [ofNumerals_append_singleton, ih, hlast, Nat.ofDigits_cons, Nat.add_comm]

theorem ofNumerals_append (as bs : List Char) :
    ofNumerals (as ++ bs) = ofNumerals as * 10 ^ bs.length + ofNumerals bs := by
  simp only [ofNumerals_eq_ofDigits, digitValues, List.map_append, List.reverse_append,
    Nat.ofDigits_append, List.length_reverse, List.length_map]
  ring

theorem ofNumerals_cons (c : Char) (cs : List Char) :
    ofNumerals (c :: cs) = (c.toNat - 48) * 10 ^ cs.length + ofNumerals cs := by
  have hsingle : ofNumerals [c] = c.toNat - 48 := by simp [ofNumerals, value]
  rw [← List.singleton_append, ofNumerals_append, hsingle]

theorem ofNumerals_zeros (count : ℕ) : ofNumerals (List.replicate count '0') = 0 := by
  rw [ofNumerals_eq_ofDigits, digitValues, List.map_replicate, List.reverse_replicate]
  exact Nat.ofDigits_replicate_zero

theorem ofNumerals_lt {cs : List Char} (h : ∀ c ∈ cs, Token.isNumeral c = true) :
    ofNumerals cs < 10 ^ cs.length := by
  have hlt : ∀ d ∈ (digitValues cs).reverse, d < 10 := by
    intro d hd
    obtain ⟨c, hc, rfl⟩ := List.mem_map.mp (List.mem_reverse.mp hd)
    have hrange := Token.toNat_of_isNumeral (h c hc)
    omega
  simpa [ofNumerals_eq_ofDigits, digitValues] using Nat.ofDigits_lt_base_pow_length (by decide) hlt

/-- Digits behind a point count powers of a tenth. -/
theorem ofDigits_tenth (cs : List Char) :
    Nat.ofDigits (1 / 10 : ℚ) (0 :: digitValues cs) = ofNumerals cs / 10 ^ cs.length := by
  induction cs with
  | nil => simp [digitValues, ofNumerals, value, Nat.ofDigits]
  | cons c cs ih =>
    have hshift (d : ℕ) (ds : List ℕ) : Nat.ofDigits (1 / 10 : ℚ) (0 :: d :: ds) =
        1 / 10 * (d + Nat.ofDigits (1 / 10 : ℚ) (0 :: ds)) := by
      simp [Nat.ofDigits]
    have hcons : digitValues (c :: cs) = (c.toNat - 48) :: digitValues cs := rfl
    rw [hcons, hshift, ih, ofNumerals_cons, List.length_cons]
    push_cast
    field_simp
    ring

end Decimal

namespace Number

-- ---------------------------------------------------------------------------
-- Decimal texts
-- ---------------------------------------------------------------------------

/-- A decimal as it is written: a sign, digits, and digits behind a point, if there is one. -/
structure DecimalText where
  negative : Bool
  whole : List Char
  places : Option (List Char)
  whole_ne_nil : whole ≠ []
  places_ne_nil : places ≠ some []
  isNumeral_whole : ∀ c ∈ whole, Token.isNumeral c = true
  isNumeral_places : ∀ c ∈ places.getD [], Token.isNumeral c = true

namespace DecimalText

/-- The text without its sign. -/
def body (d : DecimalText) : List Char :=
  match d.places with
  | none => d.whole
  | some places => d.whole ++ '.' :: places

def chars (d : DecimalText) : List Char := if d.negative then '-' :: d.body else d.body

def text (d : DecimalText) : String := String.ofList d.chars

/-- The exact decimal without its sign. -/
def magnitude (d : DecimalText) : ℚ :=
  Nat.ofDigits 10 (Decimal.digitValues d.whole).reverse +
    Nat.ofDigits (1 / 10) (0 :: Decimal.digitValues (d.places.getD []))

/-- The exact decimal that the text denotes. -/
def value (d : DecimalText) : ℚ := if d.negative then -d.magnitude else d.magnitude

theorem written (d : DecimalText) : Written d.whole (d.places.getD []) d.body := by
  unfold body
  cases d.places with
  | none => exact .whole
  | some places => exact .point

theorem magnitude_eq (d : DecimalText) :
    d.magnitude = Decimal.ofNumerals d.whole +
      Decimal.ofNumerals (d.places.getD []) / 10 ^ (d.places.getD []).length := by
  rw [magnitude, Decimal.ofDigits_tenth, Decimal.ofNumerals_eq_ofDigits d.whole, Nat.coe_ofDigits]
  rfl

/-- The units that the text shows, which leave out what is behind the fourth place. -/
def units (d : DecimalText) : ℤ :=
  let magnitude : ℤ :=
    Decimal.ofNumerals d.whole * 10000 + Decimal.ofNumerals (fourPlaces (d.places.getD []))
  if d.negative then -magnitude else magnitude

end DecimalText

-- ---------------------------------------------------------------------------
-- Reading
-- ---------------------------------------------------------------------------

/-- Padding and cutting digits behind the point to four is division with rounding down. -/
theorem ofNumerals_fourPlaces {cs : List Char} (h : ∀ c ∈ cs, Token.isNumeral c = true) :
    Decimal.ofNumerals (fourPlaces cs) = Decimal.ofNumerals cs * 10000 / 10 ^ cs.length := by
  let padded := cs ++ List.replicate 4 '0'
  have hcut : ∀ c ∈ padded.drop 4, Token.isNumeral c = true := by
    intro c hc
    rcases List.mem_append.mp (List.mem_of_mem_drop hc) with hc | hc
    · exact h c hc
    · rw [List.eq_of_mem_replicate hc]
      rfl
  have hlength : (padded.drop 4).length = cs.length := by simp [padded]
  have hlt : Decimal.ofNumerals (padded.drop 4) < 10 ^ cs.length :=
    hlength ▸ Decimal.ofNumerals_lt hcut
  have hpadded : Decimal.ofNumerals padded = Decimal.ofNumerals cs * 10000 := by
    rw [Decimal.ofNumerals_append, Decimal.ofNumerals_zeros, List.length_replicate, Nat.add_zero]
    norm_num
  have hsplit : Decimal.ofNumerals cs * 10000 =
      10 ^ cs.length * Decimal.ofNumerals (fourPlaces cs) + Decimal.ofNumerals (padded.drop 4) := by
    rw [← hpadded, ← List.take_append_drop 4 padded, Decimal.ofNumerals_append, hlength,
      Nat.mul_comm, List.take_append_drop]
    rfl
  rw [hsplit, Nat.mul_add_div (by positivity), Nat.div_eq_of_lt hlt, Nat.add_zero]

theorem floor_magnitude (d : DecimalText) :
    ⌊d.magnitude * 10000⌋ =
      Decimal.ofNumerals d.whole * 10000 + Decimal.ofNumerals (fourPlaces (d.places.getD [])) := by
  have hexact : d.magnitude * 10000 = (Decimal.ofNumerals d.whole * 10000 : ℕ) +
      ((Decimal.ofNumerals (d.places.getD []) * 10000 : ℕ) : ℚ) /
        (10 ^ (d.places.getD []).length : ℕ) := by
    rw [d.magnitude_eq]
    push_cast
    ring
  rw [hexact, Int.floor_natCast_add, Rat.floor_natCast_div_natCast,
    ofNumerals_fourPlaces d.isNumeral_places]
  push_cast
  rfl

/-- The units that are read are those of the exact decimal, rounded toward zero. -/
theorem towardZero_value (d : DecimalText) : towardZero (d.value * 10000) = d.units := by
  have hnonneg : 0 ≤ d.magnitude * 10000 := by
    rw [d.magnitude_eq]
    positivity
  have hmagnitude : towardZero (d.magnitude * 10000) =
      Decimal.ofNumerals d.whole * 10000 + Decimal.ofNumerals (fourPlaces (d.places.getD [])) := by
    rw [towardZero_of_nonneg hnonneg, floor_magnitude]
  rw [DecimalText.value, DecimalText.units]
  cases d.negative with
  | true => simp only [if_true, neg_mul, towardZero_neg, hmagnitude]
  | false => simpa using hmagnitude

theorem ofLiteral_text (d : DecimalText) (hlength : d.whole.length ≤ maxDigits) :
    ofLiteral d.text = .ok (ofRaw d.units) :=
  ofLiteral_numerals d.negative d.written d.isNumeral_whole d.whole_ne_nil hlength
    d.isNumeral_places

/-- Digits behind the fourth place do not count. -/
theorem fourPlaces_append {cs : List Char} (h : 4 ≤ cs.length) (further : List Char) :
    fourPlaces (cs ++ further) = fourPlaces cs := by
  rw [fourPlaces, fourPlaces, List.append_assoc, List.take_append_of_le_length h,
    List.take_append_of_le_length h]

theorem Written.append {whole places cs : List Char} (h : Written whole places cs)
    (hne : places ≠ []) (further : List Char) :
    Written whole (places ++ further) (cs ++ further) := by
  cases h with
  | whole => exact absurd rfl hne
  | point =>
    rw [List.append_assoc, List.cons_append]
    exact .point

/-- A text with four places or more reads the same if further digits are appended. -/
theorem ofLiteral_append {d : DecimalText} (hlength : d.whole.length ≤ maxDigits)
    (hplaces : 4 ≤ (d.places.getD []).length) {further : List Char}
    (hfurther : ∀ c ∈ further, Token.isNumeral c = true) :
    ofLiteral (String.ofList (d.chars ++ further)) = .ok (ofRaw d.units) := by
  have hne : d.places.getD [] ≠ [] := List.ne_nil_of_length_pos (by omega)
  have hchars : d.chars ++ further =
      if d.negative then '-' :: (d.body ++ further) else d.body ++ further := by
    unfold DecimalText.chars
    split <;> rfl
  rw [hchars, ofLiteral_numerals d.negative (d.written.append hne further) d.isNumeral_whole
    d.whole_ne_nil hlength (List.forall_mem_append.mpr ⟨d.isNumeral_places, hfurther⟩),
    fourPlaces_append hplaces]
  rfl

/-- A decimal text denotes its exact value in units, rounded toward zero and moved into the
    range. Texts of the same value denote the same number, and digits behind the fourth
    place make no difference. -/
theorem ofLiteral_exact (d : DecimalText) (hlength : d.whole.length ≤ maxDigits) :
    ∃ n, ofLiteral d.text = .ok n ∧
      n.raw = intoRange (towardZero (d.value * 10000)) ∧
      (∀ e : DecimalText, e.whole.length ≤ maxDigits → e.value = d.value →
        ofLiteral e.text = .ok n) ∧
      (4 ≤ (d.places.getD []).length → ∀ further, (∀ c ∈ further, Token.isNumeral c = true) →
        ofLiteral (String.ofList (d.chars ++ further)) = .ok n) := by
  refine ⟨ofRaw d.units, ofLiteral_text d hlength, ?_, fun e helength hvalue => ?_, ?_⟩
  · rw [raw_ofRaw_eq, towardZero_value]
  · rw [ofLiteral_text e helength, ← towardZero_value, hvalue, towardZero_value]
  · intro hplaces further hfurther
    exact ofLiteral_append hlength hplaces hfurther

/-- A decimal just below the greatest number, with zeros in front and digits that do not fit. -/
def nearlyGreatest : DecimalText where
  negative := false
  whole := "00922337203685477".toList
  places := some "58069".toList
  whole_ne_nil := by decide
  places_ne_nil := by decide
  isNumeral_whole := List.all_eq_true.mp (by decide)
  isNumeral_places := List.all_eq_true.mp (by decide)

/-- Rounding to the nearest unit would give the greatest number. -/
theorem ofLiteral_exact_nearlyGreatest :
    nearlyGreatest.whole.length ≤ maxDigits ∧ 4 ≤ (nearlyGreatest.places.getD []).length ∧
      ∃ n, ofLiteral "00922337203685477.58069" = .ok n ∧ n.raw = 9223372036854775806 ∧
        ofLiteral "00922337203685477.5806999" = .ok n := by
  have hlength : nearlyGreatest.whole.length ≤ maxDigits := by decide
  have hplaces : 4 ≤ (nearlyGreatest.places.getD []).length := by decide
  obtain ⟨n, hread, hraw, -, hfurther⟩ := ofLiteral_exact nearlyGreatest hlength
  refine ⟨hlength, hplaces, n, hread, ?_, hfurther hplaces "99".toList ?_⟩
  · rw [hraw, towardZero_value]
    decide
  · exact List.all_eq_true.mp (by decide)

end Number

end Yolol

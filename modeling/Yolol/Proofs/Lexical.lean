-- SUMMARY: The texts that tokens of source text carry.
import Mathlib.Data.List.TakeWhile
import Yolol.Token.Lexer

/-!
# Texts of tokens

A token of source text carries a text exactly if its kind does not determine it, and
the text has the shape that its kind asks for.
-/

namespace Yolol.Token

/-- A word, and a name if it is not reserved. -/
def isWord : List Char → Bool
  | c :: cs => isWordStart c && cs.all isWordChar
  | [] => false

/-- The name of a variable as it is written: a word behind a colon, or one that is not
    reserved. -/
def isNameText : List Char → Bool
  | ':' :: cs => isWord cs
  | cs => isWord cs && (reserved? cs).isNone

/-- Digits, and a fraction of at least one digit behind a point. -/
def isNumberText (cs : List Char) : Bool :=
  match cs.dropWhile isNumeral with
  | [] => !cs.isEmpty
  | '.' :: places => !(cs.takeWhile isNumeral).isEmpty && !places.isEmpty && places.all isNumeral
  | _ => false

/-- Text between quotes. -/
def isQuotable (cs : List Char) : Bool := cs.all fun c => c != '\x22' && c != '\n'

/-- Text that stays on its line. -/
def isSingleLine (cs : List Char) : Bool := cs.all (· != '\n')

/-- A token as the lexer makes them. -/
def isLexical (t : Token) : Bool :=
  t.misfit.isNone &&
    match t.kind, t.text with
    | .identifier, some s => isNameText s.toList
    | .number, some s => isNumberText s.toList
    | .string, some s => isQuotable s.toList
    | .comment, some s => isSingleLine s.toList
    | .identifier, none | .number, none | .string, none | .comment, none => false
    | _, text => text.isNone

theorem misfit_eq_none {t : Token} (h : t.isLexical = true) : t.misfit = none := by
  simp only [isLexical, Bool.and_eq_true, Option.isNone_iff_eq_none] at h
  exact h.1

/-! ## Texts of numbers -/

theorem toNat_of_isNumeral {c : Char} (h : isNumeral c = true) : 48 ≤ c.toNat ∧ c.toNat ≤ 57 := by
  simp only [isNumeral, Bool.and_eq_true, decide_eq_true_eq] at h
  exact h

/-- The two forms of a number: numerals, and numerals with a fraction. -/
theorem isNumberText_cases {w : List Char} (h : isNumberText w = true) :
    ∃ c ds, isNumeral c = true ∧ (∀ d ∈ ds, isNumeral d = true) ∧
      (w = c :: ds ∨ ∃ places, w = c :: (ds ++ '.' :: places) ∧ places ≠ [] ∧
        ∀ d ∈ places, isNumeral d = true) := by
  have hsplit := (List.takeWhile_append_dropWhile (p := isNumeral) (l := w)).symm
  have hwhole : ∀ d ∈ w.takeWhile isNumeral, isNumeral d = true :=
    fun d hd => List.mem_takeWhile_imp hd
  unfold isNumberText at h
  split at h
  · next hrest =>
    rw [hrest, List.append_nil] at hsplit
    rw [← hsplit] at hwhole
    match w, h with
    | c :: ds, _ =>
      obtain ⟨hc, hds⟩ := List.forall_mem_cons.mp hwhole
      exact ⟨c, ds, hc, hds, .inl rfl⟩
  · next places hrest =>
    rw [hrest] at hsplit
    obtain ⟨⟨hne, hplaces⟩, hall⟩ : (w.takeWhile isNumeral ≠ [] ∧ places ≠ []) ∧
        ∀ d ∈ places, isNumeral d = true := by simpa using h
    match hw : w.takeWhile isNumeral, hne with
    | c :: ds, _ =>
      rw [hw] at hsplit hwhole
      obtain ⟨hc, hds⟩ := List.forall_mem_cons.mp hwhole
      exact ⟨c, ds, hc, hds, .inr ⟨places, hsplit, hplaces, hall⟩⟩
  · cases h

theorem isNumberText_whole {c : Char} {ds : List Char}
    (h : ∀ d ∈ c :: ds, isNumeral d = true) : isNumberText (c :: ds) = true := by
  have hnone : (c :: ds).dropWhile isNumeral = [] := List.dropWhile_eq_nil_iff.mpr h
  simp [isNumberText, hnone]

theorem isNumberText_fraction {c : Char} {ds places : List Char}
    (h : ∀ d ∈ c :: ds, isNumeral d = true) (hne : places ≠ [])
    (hplaces : ∀ d ∈ places, isNumeral d = true) :
    isNumberText (c :: (ds ++ '.' :: places)) = true := by
  have hpoint : ¬ isNumeral '.' = true := by decide
  rw [← List.cons_append, isNumberText, List.dropWhile_append_of_pos h,
    List.takeWhile_append_of_pos h, List.dropWhile_cons_of_neg hpoint,
    List.takeWhile_cons_of_neg hpoint]
  simpa [hne] using hplaces

end Yolol.Token

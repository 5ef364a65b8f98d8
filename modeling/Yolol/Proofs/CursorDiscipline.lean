-- SUMMARY: From any place in any list of tokens, reading in place ends and keeps to its line.
import Yolol.Proofs.InPlaceOutcome

/-!
# Discipline of the cursor

A rule for expressions that finds none leaves the cursor where it was, so another rule can be
tried there; one that finds an expression has moved the cursor on; one that fails has at
least not moved it back. None goes past the end, and none reads a newline. Nothing of this is
asked of the tokens, and it is why the loops of the parser end: each round that goes on has
taken a token.
-/

namespace Yolol.Cursor

open Parse

variable {c : Cursor}

-- ---------------------------------------------------------------------------
-- Moving on
-- ---------------------------------------------------------------------------

/-- The place is in the list or behind its last token. -/
def Within (c : Cursor) : Prop := 0 ≤ c.position ∧ c.position ≤ c.tokens.length

instance : Decidable c.Within := inferInstanceAs (Decidable (_ ∧ _))

/-- From `c` to `c'` the cursor moved over tokens of one line, if it moved at all. -/
structure Advances (c c' : Cursor) : Prop where
  tokens : c'.tokens = c.tokens
  forward : c.position ≤ c'.position
  inside : c'.position ≤ c.tokens.length
  line : ∀ t ∈ slice c.tokens c.position c'.position, t.kind ≠ .newline

theorem rest_suffix (c : Cursor) : c.rest <:+ c.tokens := List.drop_suffix _ _

theorem moveTo_rest (hc : c.Within) : c.moveTo c.rest = c := by
  obtain ⟨hfront, hend⟩ := hc
  obtain ⟨tokens, position⟩ := c
  simp only at hfront hend
  simp only [moveTo, Cursor.rest, List.length_drop, mk.injEq, true_and]
  omega

/-- What is left of what is left in front of the cursor is a place behind it. -/
theorem place_moveTo (hc : c.Within) {rest : List Token} (h : rest <:+ c.rest) :
    c.position ≤ (c.moveTo rest).position ∧ (c.moveTo rest).Within := by
  have hlength := h.length_le
  obtain ⟨hfront, hend⟩ := hc
  simp only [Cursor.rest, List.length_drop] at hlength
  simp only [Within, moveTo]
  omega

theorem position_lt_moveTo (hc : c.Within) {rest : List Token}
    (hfewer : rest.length < c.rest.length) : c.position < (c.moveTo rest).position := by
  obtain ⟨hfront, hend⟩ := hc
  simp only [Cursor.rest, List.length_drop] at hfewer
  simp only [moveTo]
  omega

theorem slice_moveTo (hc : c.Within) {used rest : List Token} (hrest : c.rest = used ++ rest) :
    slice c.tokens c.position (c.moveTo rest).position = used := by
  obtain ⟨hfront, hend⟩ := hc
  have htokens : c.tokens.take c.position.toNat ++ (used ++ rest) = c.tokens := by
    rw [← hrest, Cursor.rest, List.take_append_drop]
  have hlength := congrArg List.length htokens
  simp only [List.length_append, List.length_take] at hlength
  have hplace : (c.moveTo rest).position = (c.position.toNat + used.length : Nat) := by
    simp only [moveTo]
    omega
  have hstart : ¬ c.position < 0 := by omega
  have hstop : ¬ ((c.position.toNat + used.length : Nat) : Int) < 0 := by omega
  simp only [slice, hplace, if_neg hstart, if_neg hstop, Int.toNat_natCast]
  rw [List.drop_take, Nat.add_sub_cancel_left]
  show c.rest.take used.length = used
  rw [hrest, List.take_left]

theorem advances_moveTo (hc : c.Within) {rest : List Token} (h : WithinLine c.rest rest) :
    c.Advances (c.moveTo rest) := by
  obtain ⟨used, hrest, hused⟩ := h
  obtain ⟨hforward, -, hinside⟩ := place_moveTo hc ⟨used, hrest.symm⟩
  exact ⟨rfl, hforward, hinside, by rwa [slice_moveTo hc hrest]⟩

/-- How a rule may end that starts at `c` and need not find anything there. -/
inductive Attempted {φ α : Type} (c : Cursor) : Ending φ (Option α) → Prop where
  /-- Nothing starts there, and another rule may be tried. -/
  | absent : Attempted c (.ok none, c)
  | found {value : α} {c' : Cursor} (advances : c.Advances c')
      (further : c.position < c'.position) : Attempted c (.ok (some value), c')
  | failed {f : Failure φ} {c' : Cursor} (advances : c.Advances c') : Attempted c (.error f, c')

/-- How a rule may end that starts at `c` and fails if it finds nothing there. -/
inductive Completed {φ α : Type} (c : Cursor) : Ending φ α → Prop where
  | found {value : α} {c' : Cursor} (advances : c.Advances c')
      (further : c.position < c'.position) : Completed c (.ok value, c')
  | failed {f : Failure φ} {c' : Cursor} (advances : c.Advances c') : Completed c (.error f, c')

theorem advances_ending {φ α : Type} (hc : c.Within) {n : Nat} {step : Step φ α n}
    (h : WithinLine c.rest step.result.2) : c.Advances (step.ending c).2 := by
  cases step with
  | found | failed => exact advances_moveTo hc h

/-- A loop that starts with something found ends with something found. -/
theorem advances_loop {φ α : Type} (hc : c.Within) {n : Nat} {step : Step φ α n}
    (h : WithinLine c.rest step.result.2) : c.Advances ((step.map some).ending c).2 := by
  cases step with
  | found | failed => exact advances_moveTo hc h

theorem attempted_ending {φ α : Type} (hc : c.Within) {attempt : Attempt φ α c.rest.length}
    (h : ∀ step, attempt = some step → WithinLine c.rest step.result.2) :
    c.Attempted (Attempt.ending c c.rest attempt) := by
  match attempt, h with
  | none, _ =>
    rw [Attempt.ending, moveTo_rest hc]
    exact .absent
  | some (.found value rest fewer), h =>
    exact .found (advances_moveTo hc (h _ rfl)) (position_lt_moveTo hc fewer)
  | some (.failed f rest _), h => exact .failed (advances_moveTo hc (h _ rfl))

theorem completed_ending {φ α : Type} (hc : c.Within) {step : Step φ α c.rest.length}
    (h : WithinLine c.rest step.result.2) : c.Completed (step.ending c) := by
  cases step with
  | found value rest fewer => exact .found (advances_moveTo hc h) (position_lt_moveTo hc fewer)
  | failed f rest _ => exact .failed (advances_moveTo hc h)

end Yolol.Cursor

namespace Yolol.Parse

/-! ## Every outcome stays within the line -/

theorem Explained.withinLine {rule : Rule} {ts : List Token} {n : Nat} {step : ExpressionStep n}
    (h : Explained rule ts (some step)) : WithinLine ts step.result.2 := by
  match step, h with
  | .found _ _ _, derives => exact Derives.withinLine derives
  | .failed _ _ _, fails => exact Fails.withinLine fails

theorem Accounted.withinLine {phase : Phase} {ts : List Token} {n : Nat} {step : StatementStep n}
    (h : Accounted phase ts step) : WithinLine ts step.result.2 := by
  match step, h with
  | .found _ _ _, composes => exact Composes.withinLine composes
  | .failed _ _ _, breaks => exact Breaks.withinLine breaks

theorem withinLine_expression (ts : List Token) : WithinLine ts (expression ts).result.2 := by
  cases h : expression ts with
  | found e rest _ => exact (derives_of_expression h).withinLine
  | failed f rest _ => exact (stuck_of_expression h).withinLine

theorem suffix_lineFrom (soFar : List Node) (ts : List Token) :
    (lineFrom soFar ts).rest <:+ ts := by
  fun_induction lineFrom soFar ts with
  | case1 => exact List.suffix_rfl
  | case2 soFar t ts => exact List.suffix_cons t ts
  | case3 soFar t ts _ _ f rest _ hfailed => exact (breaks_of_statement hfailed).withinLine.suffix
  | case4 soFar t ts _ _ s rest _ hfound ih =>
    exact ih.trans (composes_of_statement hfound).withinLine.suffix

theorem suffix_programFrom (lines soFar : List Node) (ts : List Token) :
    (programFrom lines soFar ts).rest <:+ ts := by
  fun_induction programFrom lines soFar ts with
  | case1 | case2 => exact List.suffix_rfl
  | case3 lines soFar t ts _ ih => exact ih.trans (List.suffix_cons t ts)
  | case4 lines soFar t ts _ _ f rest _ hfailed =>
    exact (breaks_of_statement hfailed).withinLine.suffix
  | case5 lines soFar t ts _ _ s rest _ hfound ih =>
    exact ih.trans (composes_of_statement hfound).withinLine.suffix

namespace InPlace

/-! ## The discipline -/

/-- The rules for expressions that may find none, from the loosest operators to single values. -/
inductive Layer where
  | chain (tier : Tier)
  | power
  | repeated
  | unary
  | negation
  | atom
  | single

/-- The rule of the layer, in place. -/
def Layer.read : Layer → Nat → Cursor → Option ExpressionEnding
  | .chain tier, n => InPlace.chain n tier
  | .power, n => InPlace.power n
  | .repeated, n => InPlace.repeated n
  | .unary, n => InPlace.unary n
  | .negation, n => InPlace.negation n
  | .atom, n => InPlace.atom n
  | .single, n => InPlace.single n

/-- The rule of the layer, on a list of tokens. -/
def Layer.attempt : Layer → (ts : List Token) → ExpressionAttempt ts.length
  | .chain tier => Parse.chain tier
  | .power => Parse.power
  | .repeated => Parse.repeated
  | .unary => Parse.unary
  | .negation => Parse.negation
  | .atom => Parse.atom
  | .single => Parse.single

theorem Layer.read_moveTo {c : Cursor} (layer : Layer) {ts : List Token} (h : ts <:+ c.tokens)
    {n : Nat} (hn : 20 * (ts.length + 1) < n) :
    layer.read n (c.moveTo ts) = some (Attempt.ending c ts (layer.attempt ts)) := by
  cases layer with
  | chain tier =>
    have hdepth := tier.depth_le
    exact chain_moveTo tier h n (by omega)
  | power => exact power_moveTo h n (by omega)
  | repeated => exact repeated_moveTo h n (by omega)
  | unary => exact unary_moveTo h n (by omega)
  | negation => exact negation_moveTo h n (by omega)
  | atom => exact atom_moveTo h n (by omega)
  | single => exact single_moveTo h n (by omega)

theorem Layer.withinLine (layer : Layer) (ts : List Token) (step : ExpressionStep ts.length)
    (h : layer.attempt ts = some step) : WithinLine ts step.result.2 := by
  have hline {rule : Rule} (explained : Explained rule ts (layer.attempt ts)) :
      WithinLine ts step.result.2 := (h ▸ explained).withinLine
  cases layer with
  | chain tier => exact hline (explained_chain tier ts)
  | power => exact hline (explained_power ts)
  | repeated => exact hline (explained_repeated ts)
  | unary => exact hline (explained_unary ts)
  | atom => exact hline (explained_atom ts)
  | single => exact hline (explained_single ts)
  | negation =>
    have hunary : Parse.unary ts = some step := by
      simp only [Layer.attempt, Parse.negation] at h
      split at h
      · cases h
      · exact h
    exact (hunary ▸ explained_unary ts).withinLine

/-- Reading in place from `c` on, with at most `n` calls open at once: everything ends, and
    as the rules on lists say. -/
structure Disciplined (n : Nat) (c : Cursor) : Prop where
  layer : ∀ layer : Layer, ∃ e, layer.read n c = some e ∧
    e = Attempt.ending c c.rest (layer.attempt c.rest) ∧ c.Attempted e
  expression : ∃ e, expression n c = some e ∧
    e = (Parse.expression c.rest).ending c ∧ c.Completed e
  statement : ∃ e, statement n c = some e ∧
    e = (Parse.statement c.rest).value.ending c ∧ c.Completed e
  /-- The operators of a level are folded, whatever has been folded so far. -/
  extend : ∀ tier left, ∃ e, extend n tier left c = some e ∧
    e = ((Parse.extend tier left c.rest).map some).ending c ∧ c.Advances e.2
  factorials : ∀ operand, ∃ e, factorials n operand c = some e ∧
    e = ((Parse.factorials operand c.rest).map some).ending c ∧ c.Advances e.2
  /-- A conditional is read on, whatever has been read of its branches. -/
  branches : ∀ condition body otherwise, ∃ e, branches n condition body otherwise c = some e ∧
    e = (Parse.branches condition body otherwise c.rest).value.ending c ∧ c.Advances e.2
  lineFrom : ∀ soFar, ∃ e, lineFrom n soFar c = some e ∧
    e = ((Parse.lineFrom soFar c.rest).result, c.moveTo (Parse.lineFrom soFar c.rest).rest) ∧
    c.position ≤ e.2.position ∧ e.2.Within
  programFrom : ∀ lines soFar, ∃ e, programFrom n lines soFar c = some e ∧
    e = ((Parse.programFrom lines soFar c.rest).result,
      c.moveTo (Parse.programFrom lines soFar c.rest).rest) ∧
    c.position ≤ e.2.position ∧ e.2.Within

/-- What ends in front of the tokens from the place of the cursor on, ends at the cursor. -/
theorem ends_at {α : Type} {c : Cursor} {rule : Cursor → Option α} {e : α} {P : α → Prop}
    (hc : c.Within) (h : rule (c.moveTo c.rest) = some e) (he : P e) :
    ∃ e', rule c = some e' ∧ e' = e ∧ P e' := by
  rw [Cursor.moveTo_rest hc] at h
  exact ⟨e, h, rfl, he⟩

/-- From any place within any list of tokens, whether or not they make up a program, reading
    in place ends, and with at most twenty calls open for each token that is left. -/
theorem disciplined_of_within {n : Nat} {c : Cursor} (hc : c.Within)
    (hn : 20 * (c.rest.length + 1) < n) : Disciplined n c where
  layer layer :=
    ends_at hc (layer.read_moveTo c.rest_suffix hn)
      (Cursor.attempted_ending hc (layer.withinLine c.rest))
  expression :=
    ends_at hc (expression_moveTo c.rest_suffix n (by omega))
      (Cursor.completed_ending hc (withinLine_expression c.rest))
  statement :=
    ends_at hc (statement_moveTo c.rest_suffix n (by omega))
      (Cursor.completed_ending hc (accounted_statement c.rest).withinLine)
  extend tier left :=
    ends_at hc (extend_moveTo tier left c.rest_suffix n (by omega))
      (Cursor.advances_loop hc (explained_extend tier left c.rest).withinLine)
  factorials operand :=
    ends_at hc (factorials_moveTo operand c.rest_suffix n (by omega))
      (Cursor.advances_loop hc (explained_factorials operand c.rest).withinLine)
  branches condition body otherwise :=
    ends_at hc (branches_moveTo condition body otherwise c.rest_suffix n (by omega))
      (Cursor.advances_ending hc (accounted_branches condition body otherwise c.rest).withinLine)
  lineFrom soFar :=
    ends_at hc (lineFrom_moveTo soFar c.rest_suffix n (by omega))
      (Cursor.place_moveTo hc (suffix_lineFrom soFar c.rest))
  programFrom lines soFar :=
    ends_at hc (programFrom_moveTo lines soFar c.rest_suffix n (by omega))
      (Cursor.place_moveTo hc (suffix_programFrom lines soFar c.rest))

/-- The tokens of `if a then not` and a newline behind them, read from `not` on. -/
def bareWord : Cursor where
  tokens := [{ kind := .ifWord }, { kind := .identifier, text := some "a" }, { kind := .thenWord },
    { kind := .notWord }, { kind := .newline }]
  position := 3

/-- The word lacks its operand, which is reported in front of the newline. -/
theorem disciplined_of_within_bareWord :
    bareWord.Within ∧ 20 * (bareWord.rest.length + 1) < 61 ∧ ∃ c', unary 61 bareWord =
      some (.error (.fault (.missingOperand .not (some { kind := .newline }))), c') ∧
        bareWord.Advances c' ∧ c'.position = 4 := by
  have hc : bareWord.Within := by decide
  have hn : 20 * (bareWord.rest.length + 1) < 61 := by decide
  obtain ⟨e, hread, he, hattempted⟩ := (disciplined_of_within hc hn).layer .unary
  have hunary : Attempt.ending bareWord [{ kind := .notWord }, { kind := .newline }]
      (Parse.unary [{ kind := .notWord }, { kind := .newline }]) =
      (.error (.fault (.missingOperand .not (some { kind := .newline }))),
        bareWord.moveTo [{ kind := .newline }]) := by
    simp [Parse.unary, Parse.atom, Parse.single, leadingOperator?, Step.behind, Step.stuck,
      Step.widen]
  obtain rfl := he.trans hunary
  cases hattempted with
  | failed hadvances => exact ⟨hc, hn, _, hread, hadvances, rfl⟩

/-- Reading a line in place does what reading a line from a cursor does. -/
theorem lineFrom_eq_readLine {n : Nat} {c : Cursor} (hc : c.Within)
    (hn : 20 * (c.rest.length + 1) < n) :
    lineFrom n [] c = some (c.readLine.2.result, c.readLine.1) := by
  have hplace := Cursor.moveTo_rest hc
  have hread := lineFrom_moveTo [] c.rest_suffix n (by omega)
  rw [hplace] at hread
  rw [hread]
  by_cases hleft : 0 < c.remaining
  · rw [Cursor.readLine_of_left hc.1 hleft]
    rfl
  · have hend : (c.tokens.length : Int) ≤ c.position := by
      simp only [Cursor.remaining] at hleft
      omega
    have hfront : ¬ c.position < 0 := by
      have := hc.1
      omega
    have hrest : c.rest = [] := List.drop_eq_nil_of_le (by omega)
    rw [hrest] at hplace
    rw [Cursor.readLine, if_neg hfront, if_pos hend, hrest]
    simp [Parse.line, Parse.lineFrom, hplace]

end InPlace
end Yolol.Parse

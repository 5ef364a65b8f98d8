-- SUMMARY: Reading in place ends, with the result of the rules on lists and at what they leave.
import Yolol.Proofs.InPlace
import Yolol.Proofs.LineByLine

/-!
# Outcomes in place

A cursor within the list stands in front of the tokens from its place on. There each rule
that moves the cursor ends: it finds what the rule on lists finds in these tokens, or fails
as that one does, and then stands in front of the tokens that are left. Between one token
and the next no more than twenty calls are opened, and behind the last one only those of the
rules below.
-/

namespace Yolol.Parse

/-! ## Words in front of an operand -/

/-- The operator in front, if it is a word. -/
def wordAt? (ts : List Token) : Option Operator :=
  ((kindAt ts).bind leadingOperator?).filter Operator.isWord

/-- A negation, or what binds tighter: a function of one operand whose operator is no word. -/
def negation (ts : List Token) : ExpressionAttempt ts.length :=
  if (wordAt? ts).isSome then none else unary ts

theorem wordAt?_eq_some {t : Token} {ts : List Token} {op : Operator}
    (h : wordAt? (t :: ts) = some op) : leadingOperator? t.kind = some op ∧ op.isWord = true :=
  Option.filter_eq_some_iff.mp h

/-- No atom starts with a word. -/
theorem atom_of_word {t : Token} {ts : List Token} {op : Operator}
    (h : wordAt? (t :: ts) = some op) : atom (t :: ts) = none := by
  obtain ⟨hleading, hword⟩ := wordAt?_eq_some h
  have hkind : t.kind ≠ .identifier ∧ t.kind ≠ .plus ∧ t.kind ≠ .minus := by
    refine ⟨?_, ?_, ?_⟩ <;> intro hkind <;> rw [hkind] at hleading <;> cases hleading
    cases hword
  exact atom_eq_none hleading (stepAt?_plain hkind.1 hkind.2.1 hkind.2.2)

/-- The operators in front of an operand are words, but for the minus sign. -/
theorem isWord_of_leading {kind : Token.Kind} {op : Operator} (h : leadingOperator? kind = some op)
    (hminus : kind ≠ .minus) : op.isWord = true := by
  cases kind <;> cases h <;> first | rfl | exact absurd rfl hminus

theorem negation_eq_none {t : Token} {ts : List Token} (hatom : atom (t :: ts) = none)
    (hminus : t.kind ≠ .minus) : negation (t :: ts) = none := by
  rw [negation, wordAt?, kindAt_cons, Option.bind_some]
  cases hleading : leadingOperator? t.kind with
  | none => simp [unary, hatom, hleading]
  | some op => simp [isWord_of_leading hleading hminus]

end Yolol.Parse

namespace Yolol.Cursor

open Parse

/-! ## Places within the list -/

variable {c : Cursor} {ts : List Token}

theorem peek_moveTo (h : ts <:+ c.tokens) (n : Nat) : (c.moveTo ts).peek n = ts[n]? := by
  obtain ⟨used, hused⟩ := h
  have hindex : (c.tokens.length : Int) - ts.length + n = (used.length + n : Nat) := by
    simp only [← hused, List.length_append]
    omega
  have hpos : ¬ ((used.length + n : Nat) : Int) < 0 := by omega
  simp only [peek, moveTo, hindex, if_neg hpos, Int.toNat_natCast]
  rw [← hused, List.getElem?_append_right (Nat.le_add_right _ _), Nat.add_sub_cancel_left]

theorem advance_moveTo (n : Nat) : (c.moveTo ts).advance n = c.moveTo (ts.drop n) := by
  simp only [advance, moveTo, List.length_drop]
  congr 1
  omega

theorem peek_zero_moveTo (h : ts <:+ c.tokens) : (c.moveTo ts).peek 0 = ts.head? := by
  rw [List.head?_eq_getElem?]
  exact peek_moveTo h 0

theorem peek_one_moveTo (h : ts <:+ c.tokens) : (c.moveTo ts).peek 1 = ts[1]? := peek_moveTo h 1

theorem peek_two_moveTo (h : ts <:+ c.tokens) : (c.moveTo ts).peek 2 = ts[2]? := peek_moveTo h 2

theorem kind_zero_moveTo (h : ts <:+ c.tokens) : (c.moveTo ts).kind 0 = kindAt ts := by
  rw [kind, peek_zero_moveTo h, kindAt]

theorem kind_one_moveTo (h : ts <:+ c.tokens) : (c.moveTo ts).kind 1 = kindAt ts.tail := by
  rw [kind, peek_one_moveTo h, kindAt, List.head?_tail]

theorem operator?_moveTo (h : ts <:+ c.tokens) (tier : Tier) :
    (c.moveTo ts).operator? tier = tier.operatorAt? ts := by
  rw [operator?, kind_zero_moveTo h, kind_one_moveTo h]
  cases ts <;> rfl

theorem word?_moveTo (h : ts <:+ c.tokens) : (c.moveTo ts).word? = wordAt? ts := by
  rw [word?, kind_zero_moveTo h, wordAt?]

theorem step?_moveTo (h : ts <:+ c.tokens) : (c.moveTo ts).step? = stepAt? ts := by
  rw [step?, peek_zero_moveTo h, peek_one_moveTo h, peek_two_moveTo h]
  rcases ts with _ | ⟨_, _ | ⟨_, _ | ⟨_, _⟩⟩⟩ <;> rfl

theorem assignment?_moveTo (h : ts <:+ c.tokens) :
    (c.moveTo ts).assignment? = assignmentAt? ts := by
  rw [assignment?, peek_zero_moveTo h, peek_one_moveTo h, peek_two_moveTo h]
  rcases ts with _ | ⟨_, _ | ⟨_, _ | ⟨_, _⟩⟩⟩ <;> rfl

end Yolol.Cursor

namespace Yolol.Parse

-- ---------------------------------------------------------------------------
-- Endings
-- ---------------------------------------------------------------------------

section Endings

variable {φ α β : Type} {m n : Nat}

/-- How a step ends on a cursor over the same tokens. -/
def Step.ending (c : Cursor) : Step φ α n → Ending φ α
  | .found value rest _ => (.ok value, c.moveTo rest)
  | .failed f rest _ => (.error f, c.moveTo rest)

/-- How an attempt at the tokens `ts` ends; if nothing starts there, then in front of them. -/
def Attempt.ending (c : Cursor) (ts : List Token) : Attempt φ α n → Ending φ (Option α)
  | none => (.ok none, c.moveTo ts)
  | some step => (step.map some).ending c

variable {c : Cursor} {ts : List Token}

@[simp] theorem ending_found {value : α} {rest : List Token} {h : rest.length < n} :
    (Step.found value rest h : Step φ α n).ending c = (.ok value, c.moveTo rest) := rfl

@[simp] theorem ending_failed {f : Failure φ} {rest : List Token} {h : rest.length ≤ n} :
    (Step.failed f rest h : Step φ α n).ending c = (.error f, c.moveTo rest) := rfl

@[simp] theorem map_found {value : α} {rest : List Token} {h : rest.length < n} {f : α → β} :
    (Step.found value rest h : Step φ α n).map f = .found (f value) rest h := rfl

@[simp] theorem map_failed {failure : Failure φ} {rest : List Token} {h : rest.length ≤ n}
    {f : α → β} : (Step.failed failure rest h : Step φ α n).map f = .failed failure rest h := rfl

@[simp] theorem ending_widen {h : m ≤ n} (step : Step φ α m) :
    (step.widen h).ending c = step.ending c := by
  cases step <;> rfl

@[simp] theorem ending_map_widen {h : m ≤ n} {f : α → β} (step : Step φ α m) :
    ((step.widen h).map f).ending c = (step.map f).ending c := by
  cases step <;> rfl

@[simp] theorem ending_some (step : Step φ α n) :
    Attempt.ending c ts (some step) = (step.map some).ending c := rfl

end Endings

theorem Tier.depth_le (tier : Tier) : tier.depth ≤ 6 := by
  cases tier <;> decide

namespace InPlace

variable {c : Cursor}

theorem advance_cons {t : Token} {ts : List Token} :
    (c.moveTo (t :: ts)).advance 1 = c.moveTo ts := Cursor.advance_moveTo 1

theorem suffix_of_cons {t : Token} {ts : List Token} (h : t :: ts <:+ c.tokens) :
    ts <:+ c.tokens := (List.suffix_cons t ts).trans h

/-! ## Expressions in place -/

theorem factorials_moveTo (operand : Node) {ts : List Token} (h : ts <:+ c.tokens) :
    ∀ n, ts.length < n →
      factorials n operand (c.moveTo ts) =
        some (((Parse.factorials operand ts).map some).ending c)
  | n + 1, hn => by
    rw [factorials, Cursor.kind_zero_moveTo h, Cursor.kind_one_moveTo h]
    match ts, h, hn with
    | [], _, _ => rfl
    | t :: ts, h, hn =>
      have hnext := factorials_moveTo (.unary .factorial operand) (suffix_of_cons h) n
        (Nat.lt_of_succ_lt_succ hn)
      rw [List.tail_cons, advance_cons, hnext]
      by_cases hexclam : t.kind = .exclam ∧ ts.head?.map (·.kind) ≠ some .equal
      · have hat : kindAt (t :: ts) = some .exclam ∧ kindAt ts ≠ some .equal :=
          ⟨congrArg some hexclam.1, hexclam.2⟩
        rw [Parse.factorials, if_pos hexclam, if_pos hat, ending_map_widen]
      · have hat : ¬ (kindAt (t :: ts) = some .exclam ∧ kindAt ts ≠ some .equal) :=
          fun hat => hexclam ⟨Option.some.inj hat.1, hat.2⟩
        rw [Parse.factorials, if_neg hexclam, if_neg hat]
        rfl

-- The induction is on the calls that may be open. A rule asks for one call more than the rule
-- below it, and whatever it asks of the tokens behind one that was taken, these are fewer,
-- which makes up for a way through all the rules.
mutual
theorem chain_moveTo (tier : Tier) {ts : List Token} (h : ts <:+ c.tokens) :
    ∀ n, 20 * ts.length + 2 * tier.depth + 5 < n →
      chain n tier (c.moveTo ts) = some (Attempt.ending c ts (Parse.chain tier ts))
  | n + 1, hn => by
    have explained := explained_operand tier ts
    rw [chain, Parse.chain, operand_moveTo tier h n (by omega)]
    match Parse.operand tier ts, explained with
    | none, _ => rfl
    | some (.failed f rest _), _ => rfl
    | some (.found left rest fewer), derives =>
      have hmore := extend_moveTo tier left (derives.withinLine.suffix.trans h) n (by omega)
      simpa using hmore

theorem operand_moveTo (tier : Tier) {ts : List Token} (h : ts <:+ c.tokens) :
    ∀ n, 20 * ts.length + 2 * tier.depth + 4 < n →
      operand n tier (c.moveTo ts) = some (Attempt.ending c ts (Parse.operand tier ts))
  | n + 1, hn => by
    rw [operand.eq_def, Parse.operand.eq_def]
    match tier with
    | .conjunction => exact chain_moveTo .disjunction h n (Nat.lt_of_succ_lt_succ hn)
    | .disjunction => exact chain_moveTo .equality h n (Nat.lt_of_succ_lt_succ hn)
    | .equality => exact chain_moveTo .order h n (Nat.lt_of_succ_lt_succ hn)
    | .order => exact chain_moveTo .sum h n (Nat.lt_of_succ_lt_succ hn)
    | .sum => exact chain_moveTo .product h n (Nat.lt_of_succ_lt_succ hn)
    | .product => exact power_moveTo h n (Nat.lt_of_succ_lt_succ hn)

theorem extend_moveTo (tier : Tier) (left : Node) {ts : List Token} (h : ts <:+ c.tokens) :
    ∀ n, 20 * ts.length < n →
      extend n tier left (c.moveTo ts) =
        some (((Parse.extend tier left ts).map some).ending c)
  | n + 1, hn => by
    have hdepth := tier.depth_le
    rw [extend, Cursor.operator?_moveTo h]
    match ts, h, hn with
    | [], _, _ =>
      rw [Parse.extend]
      rfl
    | t :: ts, h, hn =>
      have hat : tier.operatorAt? (t :: ts) = tier.operator? t.kind (ts.head?.map (·.kind)) := rfl
      rw [hat]
      unfold Parse.extend
      cases operator : tier.operator? t.kind (ts.head?.map (·.kind)) with
      | none => rfl
      | some spelled =>
        obtain ⟨op, more⟩ := spelled
        have hright := (WithinLine.operator operator).suffix.trans h
        have hadvance : (c.moveTo (t :: ts)).advance (more + 1) = c.moveTo (ts.drop more) :=
          Cursor.advance_moveTo (more + 1)
        have hfewer := length_drop_lt_cons t ts more
        have explained := explained_operand tier (ts.drop more)
        simp only [List.length_cons] at hn hfewer
        simp only [hadvance, operand_moveTo tier hright n (by omega)]
        match Parse.operand tier (ts.drop more), explained with
        | none, _ => rfl
        | some (.failed (.fault f) rest _), _ => rfl
        | some (.failed (.token f) rest _), _ => rfl
        | some (.found right rest fewer), derives =>
          have hnext := extend_moveTo tier (.binary op left right)
            (derives.withinLine.suffix.trans hright) n (by omega)
          simpa using hnext

theorem power_moveTo {ts : List Token} (h : ts <:+ c.tokens) :
    ∀ n, 20 * ts.length + 5 < n →
      power n (c.moveTo ts) = some (Attempt.ending c ts (Parse.power ts))
  | n + 1, hn => by
    have explained := explained_repeated ts
    rw [power, Parse.power, repeated_moveTo h n (by omega)]
    match Parse.repeated ts, explained with
    | none, _ => rfl
    | some (.failed f rest _), _ => rfl
    | some (.found base [] _), _ =>
      simp [Cursor.kind_zero_moveTo (c := c) List.nil_suffix]
    | some (.found base (t :: rest) fewer), derives =>
      have hrest := derives.withinLine.suffix.trans h
      have hkind := Cursor.kind_zero_moveTo hrest
      by_cases hcaret : t.kind = .caret
      · simp only [List.length_cons] at fewer
        have hexponent := power_moveTo (suffix_of_cons hrest) n (by omega)
        simp only [ending_some, map_found, ending_found, Option.bind_eq_bind, Option.bind_some,
          hkind, kindAt_cons, hcaret, if_true, advance_cons, hexponent]
        match Parse.power rest with
        | none => rfl
        | some (.failed f _ _) => rfl
        | some (.found exponent _ _) => rfl
      · simp [hkind, hcaret]

theorem repeated_moveTo {ts : List Token} (h : ts <:+ c.tokens) :
    ∀ n, 20 * ts.length + 4 < n →
      repeated n (c.moveTo ts) = some (Attempt.ending c ts (Parse.repeated ts))
  | n + 1, hn => by
    have explained := explained_unary ts
    rw [repeated, Parse.repeated, unary_moveTo h n (by omega)]
    match Parse.unary ts, explained with
    | none, _ => rfl
    | some (.failed f rest _), _ => rfl
    | some (.found value rest fewer), derives =>
      have hmore := factorials_moveTo value (derives.withinLine.suffix.trans h) n (by omega)
      simpa using hmore

theorem unary_moveTo {ts : List Token} (h : ts <:+ c.tokens) :
    ∀ n, 20 * ts.length + 3 < n →
      unary n (c.moveTo ts) = some (Attempt.ending c ts (Parse.unary ts))
  | n + 1, hn => by
    have hword := Cursor.word?_moveTo h
    rw [unary, negation_moveTo h n (by omega), Parse.negation]
    cases hat : wordAt? ts with
    | none =>
      simp only [Option.isSome_none, Bool.false_eq_true, if_false]
      match Parse.unary ts with
      | none => simp [Attempt.ending, hword, hat]
      | some (.failed f rest _) => rfl
      | some (.found value rest _) => rfl
    | some op =>
      match ts, h, hat, hn with
      | t :: ts, h, hat, hn =>
        simp only [List.length_cons] at hn
        have hbehind := behind_moveTo (wordAt?_eq_some hat).1 (atom_of_word hat) h n (by omega)
        simp [Attempt.ending, hword, hat, advance_cons, hbehind]

theorem negation_moveTo {ts : List Token} (h : ts <:+ c.tokens) :
    ∀ n, 20 * ts.length + 2 < n →
      negation n (c.moveTo ts) = some (Attempt.ending c ts (Parse.negation ts))
  | n + 1, hn => by
    have hkind := Cursor.kind_zero_moveTo h
    rw [negation, atom_moveTo h n (by omega)]
    match ts, h, hn with
    | [], _, _ =>
      simp [Parse.negation, Parse.unary, Parse.atom, Parse.single, Attempt.ending, hkind]
    | t :: ts, h, hn =>
      match hatom : Parse.atom (t :: ts) with
      | some step =>
        have hword : wordAt? (t :: ts) = none := by
          refine Option.eq_none_iff_forall_ne_some.mpr fun op hat => ?_
          rw [atom_of_word hat] at hatom
          cases hatom
        rw [Parse.negation, Parse.unary, hatom]
        cases step <;> simp [hword]
      | none =>
        by_cases hminus : t.kind = .minus
        · have hleading : leadingOperator? t.kind = some .negate := by rw [hminus]; rfl
          have hword : wordAt? (t :: ts) = none := by rw [wordAt?, kindAt_cons, hminus]; rfl
          simp only [List.length_cons] at hn
          have hbehind := behind_moveTo hleading hatom h n (by omega)
          simp [Attempt.ending, hkind, hminus, advance_cons, hbehind, Parse.negation, hword]
        · have habsent := negation_eq_none hatom hminus
          simp [Attempt.ending, hkind, hminus, habsent]

theorem behind_moveTo {t : Token} {ts : List Token} {op : Operator}
    (operator : leadingOperator? t.kind = some op) (noAtom : Parse.atom (t :: ts) = none)
    (h : t :: ts <:+ c.tokens) :
    ∀ n, 20 * ts.length + 4 < n →
      behind n op (c.moveTo ts) = some (Attempt.ending c (t :: ts) (Parse.unary (t :: ts)))
  | n + 1, hn => by
    have hoperand := suffix_of_cons h
    rw [behind, Parse.unary, unary_moveTo hoperand n (by omega), noAtom]
    simp only [operator]
    match Parse.unary ts with
    | none => simp [Attempt.ending, Step.behind, Step.stuck, Cursor.peek_zero_moveTo hoperand]
    | some (.failed f rest _) => rfl
    | some (.found value rest _) => rfl

theorem atom_moveTo {ts : List Token} (h : ts <:+ c.tokens) :
    ∀ n, 20 * ts.length + 1 < n →
      atom n (c.moveTo ts) = some (Attempt.ending c ts (Parse.atom ts))
  | n + 1, hn => by
    rw [atom, Cursor.step?_moveTo h]
    cases hstep : stepAt? ts with
    | some spelled =>
      obtain ⟨op, t⟩ := spelled
      match ts, hstep with
      | u :: v :: w :: rest, hstep =>
        have hstep : step? u v w = some (op, t) := hstep
        have hadvance : (c.moveTo (u :: v :: w :: rest)).advance 3 = c.moveTo rest :=
          Cursor.advance_moveTo 3
        rw [Parse.atom]
        simp only [hstep, hadvance]
        cases identifierOf t with
        | ok id => rfl
        | error e => rfl
    | none =>
      rw [atom_eq_single hstep]
      simp only [single_moveTo h n (by omega)]
      match Parse.single ts with
      | none => rfl
      | some (.failed f rest _) => rfl
      | some (.found value rest _) => rfl

theorem single_moveTo {ts : List Token} (h : ts <:+ c.tokens) :
    ∀ n, 20 * ts.length < n →
      single n (c.moveTo ts) = some (Attempt.ending c ts (Parse.single ts))
  | n + 1, hn => by
    rw [single, Cursor.peek_zero_moveTo h]
    match ts, h, hn with
    | [], _, _ => simp [Parse.single, Attempt.ending]
    | t :: ts, h, hn =>
      have hcontent := suffix_of_cons h
      simp only [List.length_cons] at hn
      simp only [List.head?_cons, advance_cons]
      rw [Parse.single.eq_def]
      cases hkind : t.kind with
      | string =>
        simp only [hkind]
        rfl
      | number =>
        simp only [hkind]
        cases numberOf t with
        | ok value => rfl
        | error e => rfl
      | identifier =>
        simp only [hkind]
        cases identifierOf t with
        | ok id => rfl
        | error e => rfl
      | lparen =>
        have explained := explained_chain .conjunction ts
        simp only [hkind, expression_moveTo hcontent n (by omega)]
        rw [Parse.expression.eq_def]
        match Parse.chain .conjunction ts, explained with
        | none, _ => rfl
        | some (.failed f rest _), _ => rfl
        | some (.found inner [] _), _ =>
          simp [Cursor.kind_zero_moveTo (c := c) List.nil_suffix]
        | some (.found inner (close :: rest) _), derives =>
          have hclose := Cursor.kind_zero_moveTo (derives.withinLine.suffix.trans hcontent)
          by_cases hrparen : close.kind = .rparen
          · simp [hclose, hrparen, advance_cons]
          · simp [hclose, hrparen]
      | _ => simp [hkind, Attempt.ending]

theorem expression_moveTo {ts : List Token} (h : ts <:+ c.tokens) :
    ∀ n, 20 * ts.length + 18 < n →
      expression n (c.moveTo ts) = some ((Parse.expression ts).ending c)
  | n + 1, hn => by
    rw [expression, chain_moveTo .conjunction h n (Nat.lt_of_succ_lt_succ hn), Parse.expression]
    match Parse.chain .conjunction ts with
    | none => simp [Attempt.ending, Step.stuck, Cursor.peek_zero_moveTo h]
    | some (.failed f rest _) => rfl
    | some (.found e rest _) => rfl
end

/-! ## Statements in place -/

theorem expressionStatement_moveTo (make : Node → Node) {ts : List Token} (h : ts <:+ c.tokens)
    {n : Nat} (hn : 20 * ts.length + 18 < n) :
    expressionStatement n make (c.moveTo ts) =
      some ((Parse.expressionStatement make ts).ending c) := by
  rw [expressionStatement, expression_moveTo h n hn, Parse.expressionStatement]
  cases Parse.expression ts with
  | found e rest _ => rfl
  | failed f rest _ => rfl

theorem simpleStatement_moveTo {t : Token} {ts : List Token} (h : t :: ts <:+ c.tokens)
    {n : Nat} (hn : 20 * (t :: ts).length + 18 < n) :
    simpleStatement n t (c.moveTo (t :: ts)) =
      some ((Parse.simpleStatement (t :: ts)).ending c) := by
  have hwhole := expressionStatement_moveTo .evaluation h hn
  simp only [List.length_cons] at hn
  rw [simpleStatement, Cursor.assignment?_moveTo h, advance_cons]
  unfold Parse.simpleStatement
  simp only
  split
  · rfl
  split
  · rw [Step.behind, ending_widen]
    exact expressionStatement_moveTo .goto (suffix_of_cons h) (by omega)
  rcases ts with _ | ⟨u, _ | ⟨v, ts⟩⟩
  · exact hwhole
  · exact hwhole
  · have hat : assignmentAt? (t :: u :: v :: ts) = assignment? t u v := rfl
    cases hspelled : assignment? t u v with
    | none =>
      simp only [hat, hspelled]
      exact hwhole
    | some spelled =>
      obtain ⟨op, more⟩ := spelled
      have hadvance : (c.moveTo (t :: u :: v :: ts)).advance (more + 1) =
          c.moveTo ((u :: v :: ts).drop more) := Cursor.advance_moveTo (more + 1)
      simp only [hat, hspelled, hadvance]
      cases identifierOf t with
      | error e => rfl
      | ok id =>
        have hvalue := (WithinLine.assignment (hat.trans hspelled)).suffix.trans h
        have hfewer := length_drop_lt_cons t (u :: v :: ts) more
        simp only [List.length_cons] at hfewer hn
        simp only [ending_widen]
        exact expressionStatement_moveTo (.assignment (.identifier id) op) hvalue (by omega)

mutual
theorem statement_moveTo {ts : List Token} (h : ts <:+ c.tokens) :
    ∀ n, 20 * ts.length + 19 < n →
      statement n (c.moveTo ts) = some ((Parse.statement ts).value.ending c)
  | n + 1, hn => by
    have hless := Nat.lt_of_succ_lt_succ hn
    rw [statement, Cursor.peek_zero_moveTo h]
    match ts, h, hless with
    | [], h, hless =>
      rw [Parse.statement]
      exact expressionStatement_moveTo .evaluation h hless
    | t :: ts, h, hless =>
      simp only [List.head?_cons, advance_cons]
      by_cases hif : t.kind = .ifWord
      · simp only [List.length_cons] at hless
        rw [if_pos hif]
        exact conditional_moveTo hif h n (by omega)
      · rw [if_neg hif, Parse.statement, if_neg hif]
        exact simpleStatement_moveTo h hless

theorem conditional_moveTo {t : Token} {ts : List Token} (hif : t.kind = .ifWord)
    (h : t :: ts <:+ c.tokens) :
    ∀ n, 20 * ts.length + 19 < n →
      conditional n (c.moveTo ts) = some ((Parse.statement (t :: ts)).value.ending c)
  | n + 1, hn => by
    have htest := suffix_of_cons h
    rw [conditional, expression_moveTo htest n (by omega), Parse.statement, if_pos hif]
    match hcondition : Parse.expression ts with
    | .failed f rest _ => rfl
    | .found condition [] _ =>
      simp [Cursor.kind_zero_moveTo (c := c) List.nil_suffix,
        Cursor.peek_zero_moveTo (c := c) List.nil_suffix]
    | .found condition (u :: rest) fewer =>
      have hrest := (derives_of_expression hcondition).withinLine.suffix.trans htest
      have hkind := Cursor.kind_zero_moveTo hrest
      by_cases hthen : u.kind = .thenWord
      · simp only [List.length_cons] at fewer
        have hbranches := branches_moveTo condition [] none (suffix_of_cons hrest) n (by omega)
        simp [hkind, hthen, advance_cons, hbranches]
      · simp [hkind, hthen, Cursor.peek_zero_moveTo hrest]

theorem branches_moveTo (condition : Node) (body : List Node) (otherwise : Option (List Node))
    {ts : List Token} (h : ts <:+ c.tokens) :
    ∀ n, 20 * ts.length + 20 < n →
      branches n condition body otherwise (c.moveTo ts) =
        some ((Parse.branches condition body otherwise ts).value.ending c)
  | n + 1, hn => by
    rw [branches.eq_def]
    simp only [Cursor.remaining_moveTo, Cursor.kind_zero_moveTo h]
    match ts, h, hn with
    | [], _, _ =>
      rw [Parse.branches]
      rfl
    | t :: ts, h, hn =>
      have hbehind := suffix_of_cons h
      have hleft : (0 : Int) < (t :: ts).length := Int.natCast_pos.mpr (Nat.succ_pos _)
      have hfirst := statement_moveTo h n (by omega)
      simp only [List.length_cons] at hn
      rw [Parse.branches.eq_def]
      simp only [hleft, true_and, kindAt_cons, ne_eq, Option.some.injEq, advance_cons]
      by_cases hnewline : t.kind = .newline
      · simp [hnewline]
      by_cases helse : t.kind = .elseWord
      · cases otherwise with
        | some statements => simp [helse]
        | none =>
          have hnext := branches_moveTo condition body (some []) hbehind n (by omega)
          simp [helse, Traced.map, hnext]
      by_cases hend : t.kind = .endWord
      · simp [hend]
      have accounted := accounted_statement (t :: ts)
      simp only [hnewline, helse, hend, if_false, not_false_eq_true, if_true, hfirst]
      match (Parse.statement (t :: ts)).value, accounted with
      | .failed f rest _, _ => rfl
      | .found s rest fewer, composes =>
        have hrest := composes.withinLine.suffix.trans h
        simp only [List.length_cons] at fewer
        cases otherwise with
        | none =>
          have hnext := branches_moveTo condition (body ++ [s]) none hrest n (by omega)
          simp [hnext]
        | some statements =>
          have hnext := branches_moveTo condition body (some (statements ++ [s])) hrest n (by omega)
          simp [hnext]
end

theorem statement_of_found {n : Nat} {ts rest : List Token} {s : Node}
    {fewer : rest.length < ts.length} (hfound : (Parse.statement ts).value = .found s rest fewer)
    (h : ts <:+ c.tokens) (hn : 20 * ts.length + 19 < n) :
    statement n (c.moveTo ts) = some (.ok s, c.moveTo rest) := by
  rw [statement_moveTo h n hn, hfound, ending_found]

theorem statement_of_failed {n : Nat} {ts rest : List Token} {f : Failure StatementFault}
    {within : rest.length ≤ ts.length}
    (hfailed : (Parse.statement ts).value = .failed f rest within)
    (h : ts <:+ c.tokens) (hn : 20 * ts.length + 19 < n) :
    statement n (c.moveTo ts) = some (.error f, c.moveTo rest) := by
  rw [statement_moveTo h n hn, hfailed, ending_failed]

/-! ## Lines and programs in place -/

theorem lineFrom_moveTo (soFar : List Node) {ts : List Token} (h : ts <:+ c.tokens) :
    ∀ n, 20 * ts.length + 20 < n →
      lineFrom n soFar (c.moveTo ts) =
        some ((Parse.lineFrom soFar ts).result, c.moveTo (Parse.lineFrom soFar ts).rest)
  | n + 1, hn => by
    rw [lineFrom, Cursor.remaining_moveTo, Cursor.kind_zero_moveTo h, Parse.lineFrom.eq_def]
    match ts, h, hn with
    | [], _, _ => rfl
    | t :: ts, h, hn =>
      by_cases hnewline : t.kind = .newline
      · simp [hnewline, advance_cons]
      have hless := Nat.lt_of_succ_lt_succ hn
      cases hfirst : (Parse.statement (t :: ts)).value with
      | failed f rest _ => simp [hnewline, statement_of_failed hfirst h hless, hfirst]
      | found s rest fewer =>
        have hrest := (composes_of_statement hfirst).withinLine.suffix.trans h
        have hnext := lineFrom_moveTo (soFar ++ [s]) hrest n (by omega)
        simp [hnewline, statement_of_found hfirst h hless, hfirst, hnext, Reading.prepend]

theorem programFrom_moveTo (lines soFar : List Node) {ts : List Token} (h : ts <:+ c.tokens) :
    ∀ n, 20 * ts.length + 20 < n →
      programFrom n lines soFar (c.moveTo ts) =
        some ((Parse.programFrom lines soFar ts).result,
          c.moveTo (Parse.programFrom lines soFar ts).rest)
  | n + 1, hn => by
    rw [programFrom, Cursor.remaining_moveTo, Cursor.kind_zero_moveTo h,
      Parse.programFrom.eq_def]
    match ts, h, hn with
    | [], _, _ => cases soFar.isEmpty <;> simp
    | t :: ts, h, hn =>
      have hless := Nat.lt_of_succ_lt_succ hn
      by_cases hnewline : t.kind = .newline
      · simp only [List.length_cons] at hless
        have hnext := programFrom_moveTo (lines ++ [.line soFar]) [] (suffix_of_cons h) n
          (by omega)
        simp [hnewline, advance_cons, hnext, Reading.prepend]
      cases hfirst : (Parse.statement (t :: ts)).value with
      | failed f rest _ => simp [hnewline, statement_of_failed hfirst h hless, hfirst]
      | found s rest fewer =>
        have hrest := (composes_of_statement hfirst).withinLine.suffix.trans h
        have hnext := programFrom_moveTo lines (soFar ++ [s]) hrest n (by omega)
        simp [hnewline, statement_of_found hfirst h hless, hfirst, hnext, Reading.prepend]

end InPlace
end Yolol.Parse

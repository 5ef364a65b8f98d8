-- SUMMARY: The grammar of expressions, from the loosest operators to single values.
import Yolol.Parse.Step

/-!
# Expressions

From loosest to tightest: `and`, `or`, equality, order, sums, products, powers,
factorials, functions of one operand with negation, steps of a variable, values.
The first six associate to the left and differ only in their operators; powers
associate to the right. `and` binds looser than `or`.
-/

namespace Yolol.Parse

-- ---------------------------------------------------------------------------
-- Operators
-- ---------------------------------------------------------------------------

/-- The levels whose operators associate to the left, loosest first. -/
inductive Tier where
  | conjunction | disjunction | equality | order | sum | product
  deriving DecidableEq

namespace Tier

/-- The number of levels from this one down to products. -/
def depth : Tier → Nat
  | .conjunction => 6
  | .disjunction => 5
  | .equality => 4
  | .order => 3
  | .sum => 2
  | .product => 1

/-- The operator of this level that `first` and `second` spell, and the number of its
    tokens after the first. -/
def operator? (tier : Tier) (first : Token.Kind) (second : Option Token.Kind) :
    Option (Operator × Nat) :=
  match tier, first with
  | .conjunction, .andWord => some (.and, 0)
  | .disjunction, .orWord => some (.or, 0)
  | .equality, .equal => if second = some .equal then some (.equal, 1) else none
  | .equality, .exclam => if second = some .equal then some (.notEqual, 1) else none
  | .order, .langle => some (if second = some .equal then (.lessEqual, 1) else (.less, 0))
  | .order, .rangle => some (if second = some .equal then (.greaterEqual, 1) else (.greater, 0))
  | .sum, .plus => some (.add, 0)
  | .sum, .minus => some (.sub, 0)
  | .product, .star => some (.mul, 0)
  | .product, .slash => some (.div, 0)
  | .product, .percent => some (.mod, 0)
  | _, _ => none

end Tier

/-- The operator that stands in front of its operand as a single token. -/
def leadingOperator? : Token.Kind → Option Operator
  | .minus => some .negate
  | .absWord => some .abs
  | .sqrtWord => some .sqrt
  | .sinWord => some .sin
  | .cosWord => some .cos
  | .tanWord => some .tan
  | .arcsinWord => some .arcsin
  | .arccosWord => some .arccos
  | .arctanWord => some .arctan
  | .notWord => some .not
  | _ => none

/-- The step of a variable that three tokens spell, and the token of the variable. -/
def step? (a b c : Token) : Option (Operator × Token) :=
  match a.kind, b.kind, c.kind with
  | .identifier, .plus, .plus => some (.postIncrement, a)
  | .identifier, .minus, .minus => some (.postDecrement, a)
  | .plus, .plus, .identifier => some (.preIncrement, c)
  | .minus, .minus, .identifier => some (.preDecrement, c)
  | _, _, _ => none

/-- The variable that an identifier token names. -/
def identifierOf (t : Token) : Except TokenFault Identifier :=
  match t.text with
  | some text => .ok (.ofSource text)
  | none => .error .missingText

/-- The number that a number token denotes. -/
def numberOf (t : Token) : Except TokenFault Number :=
  match t.text with
  | some text =>
    match Number.ofLiteral text with
    | .ok n => .ok n
    | .error e => .error (.literal e)
  | none => .error .missingText

/-- The node that `make` builds of the text of a token, the empty text if it has none. -/
def textOf (role : Node.Role) (make : String → Node) (t : Token) : Node :=
  match t.text, t.misfit with
  | some text, _ => make text
  | none, some content => if content.isTruthy then .misfit role content else make ""
  | none, none => make ""

/-- Take the factorial of `operand` for every `!` that follows; the `!` of `!=` is not
    one of them. -/
def factorials {φ : Type} (operand : Node) : (ts : List Token) → Step φ Node (ts.length + 1)
  | [] => .found operand [] (Nat.lt_succ_self _)
  | t :: ts =>
    if t.kind = .exclam ∧ ts.head?.map (·.kind) ≠ some .equal then
      (factorials (.unary .factorial operand) ts).widen (Nat.le_succ _)
    else .found operand (t :: ts) (Nat.lt_succ_self _)

-- ---------------------------------------------------------------------------
-- Rules
-- ---------------------------------------------------------------------------

abbrev ExpressionStep (n : Nat) := Step ExpressionFault Node n
abbrev ExpressionAttempt (n : Nat) := Attempt ExpressionFault Node n

mutual
/-- An operation of the given level, or what binds tighter. -/
def chain (tier : Tier) (ts : List Token) : ExpressionAttempt ts.length :=
  match operand tier ts with
  | none => none
  | some (.failed f rest h) => some (.failed f rest h)
  | some (.found left rest h) => some ((extend tier left rest).widen h)
termination_by 20 * ts.length + 2 * tier.depth + 5

/-- An operand of an operation of the given level. -/
def operand (tier : Tier) (ts : List Token) : ExpressionAttempt ts.length :=
  match tier with
  | .conjunction => chain .disjunction ts
  | .disjunction => chain .equality ts
  | .equality => chain .order ts
  | .order => chain .sum ts
  | .sum => chain .product ts
  | .product => power ts
termination_by 20 * ts.length + 2 * tier.depth + 4
decreasing_by all_goals simp only [Tier.depth]; omega

/-- Fold the operators of the given level that follow `left`. -/
def extend (tier : Tier) (left : Node) : (ts : List Token) → ExpressionStep (ts.length + 1)
  | [] => .found left [] (Nat.lt_succ_self _)
  | t :: ts =>
    match tier.operator? t.kind (ts.head?.map (·.kind)) with
    | none => .found left (t :: ts) (Nat.lt_succ_self _)
    | some (op, more) =>
      match operand tier (ts.drop more) with
      | none =>
        .failed (.fault (.nothingAfter op left)) (ts.drop more)
          (Nat.le_succ_of_le (Nat.le_of_lt (length_drop_lt_cons t ts more)))
      | some (.failed (.fault f) rest h) =>
        .failed (.fault (.badOperand op left f)) rest
          (Nat.le_succ_of_le (Nat.le_trans h (Nat.le_of_lt (length_drop_lt_cons t ts more))))
      | some (.failed (.token f) rest h) =>
        .failed (.token f) rest
          (Nat.le_succ_of_le (Nat.le_trans h (Nat.le_of_lt (length_drop_lt_cons t ts more))))
      | some (.found right rest h) =>
        (extend tier (.binary op left right) rest).widen
          (Nat.succ_le_succ (Nat.le_of_lt (Nat.lt_trans h (length_drop_lt_cons t ts more))))
termination_by ts => 20 * ts.length
decreasing_by
  · simp only [List.length_cons, List.length_drop]
    cases tier <;> simp only [Tier.depth] <;> omega
  · simp only [List.length_cons, List.length_drop] at h ⊢
    omega

/-- A power, which associates to the right. -/
def power (ts : List Token) : ExpressionAttempt ts.length :=
  match repeated ts with
  | none => none
  | some (.failed f rest h) => some (.failed f rest h)
  | some (.found base [] h) => some (.found base [] h)
  | some (.found base (t :: rest) h) =>
    if t.kind = .caret then
      match power rest with
      | none =>
        some (.failed (.fault (.nothingAfter .pow base)) rest (Nat.le_of_lt (Nat.lt_of_succ_lt h)))
      | some (.failed f rest' h') =>
        some (.failed f rest' (Nat.le_trans h' (Nat.le_of_lt (Nat.lt_of_succ_lt h))))
      | some (.found exponent rest' h') =>
        some (.found (.binary .pow base exponent) rest' (Nat.lt_trans h' (Nat.lt_of_succ_lt h)))
    else some (.found base (t :: rest) h)
termination_by 20 * ts.length + 4
decreasing_by
  · omega
  · simp only [List.length_cons] at h; omega

/-- An operand with the factorials that follow it. -/
def repeated (ts : List Token) : ExpressionAttempt ts.length :=
  match unary ts with
  | none => none
  | some (.failed f rest h) => some (.failed f rest h)
  | some (.found value rest h) => some ((factorials value rest).widen h)
termination_by 20 * ts.length + 3

/-- A function of one operand or a negation, and then its operand. -/
def unary : (ts : List Token) → ExpressionAttempt ts.length
  | [] => none
  | t :: ts =>
    match atom (t :: ts) with
    | some step => some step
    | none =>
      match leadingOperator? t.kind with
      | none => none
      | some op =>
        match unary ts with
        | none => some (.behind t (.stuck (.fault (.missingOperand op ts.head?)) ts))
        | some (.failed f rest h) => some (.behind t (.failed f rest h))
        | some (.found value rest h) => some (.behind t (.found (.unary op value) rest h))
termination_by ts => 20 * ts.length + 2
decreasing_by all_goals simp only [List.length_cons]; omega

/-- A step of a variable, or a single value. -/
def atom (ts : List Token) : ExpressionAttempt ts.length :=
  match ts with
  | a :: b :: c :: rest =>
    match step? a b c with
    | some (op, t) =>
      match identifierOf t with
      | .error e => some (.stuck (.token e) (a :: b :: c :: rest))
      | .ok id =>
        some (.found (.unary op (.value (.identifier id))) rest
          (Nat.lt_succ_of_lt (Nat.lt_succ_of_lt (Nat.lt_succ_self _))))
    | none => (single (a :: b :: c :: rest)).map (·.map .value)
  | ts => (single ts).map (·.map .value)
termination_by 20 * ts.length + 1

/-- A literal, a variable, or an expression in parentheses. -/
def single : (ts : List Token) → ExpressionAttempt ts.length
  | [] => none
  | t :: ts =>
    match t.kind with
    | .string => some (.ofToken (textOf .text .text t) t ts)
    | .number =>
      match numberOf t with
      | .error e => some (.behind t (.stuck (.token e) ts))
      | .ok n => some (.ofToken (.number n) t ts)
    | .identifier =>
      match identifierOf t with
      | .error e => some (.behind t (.stuck (.token e) ts))
      | .ok id => some (.ofToken (.identifier id) t ts)
    | .lparen =>
      match chain .conjunction ts with
      | none => some (.behind t (.stuck (.fault (.expected ts.head?)) ts))
      | some (.failed f rest h) => some (.behind t (.failed f rest h))
      | some (.found inner [] _) => some (.failed (.fault (.unclosed inner)) [] (Nat.zero_le _))
      | some (.found inner (close :: rest) h) =>
        if close.kind = .rparen then
          some (.found (.group inner) rest (Nat.lt_succ_of_lt (Nat.lt_of_succ_lt h)))
        else
          some (.failed (.fault (.unclosed inner)) (close :: rest)
            (Nat.le_succ_of_le (Nat.le_of_lt h)))
    | _ => none
termination_by ts => 20 * ts.length
decreasing_by simp only [List.length_cons, Tier.depth]; omega
end

/-- An expression. -/
def expression (ts : List Token) : ExpressionStep ts.length :=
  match chain .conjunction ts with
  | none => .stuck (.fault (.expected ts.head?)) ts
  | some step => step

end Yolol.Parse

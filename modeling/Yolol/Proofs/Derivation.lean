-- SUMMARY: The grammar of expressions as derivations, and the parser that finds exactly those.
import Yolol.Parse.Expression

/-!
# Derivations of expressions

A derivation says which tokens make up an expression and which are left. Rules that
fold operators to the left carry what they have folded so far. A second relation says
where a rule stops when the tokens do not go on as it needs them. Every outcome of the
parser has a derivation of one of the two kinds, and what can be derived is found.
-/

namespace Yolol.Parse

-- ---------------------------------------------------------------------------
-- Looking ahead
-- ---------------------------------------------------------------------------

/-- The kind of the token in front. -/
def kindAt (ts : List Token) : Option Token.Kind := ts.head?.map (·.kind)

@[simp] theorem kindAt_nil : kindAt [] = none := rfl
@[simp] theorem kindAt_cons (t : Token) (ts : List Token) : kindAt (t :: ts) = some t.kind := rfl

theorem kindAt_eq_some {ts : List Token} {kind : Token.Kind} (h : kindAt ts = some kind) :
    ∃ t us, ts = t :: us ∧ t.kind = kind := by
  cases ts with
  | nil => cases h
  | cons t us => exact ⟨t, us, rfl, Option.some.inj h⟩

/-- The step of a variable that stands in front. -/
def stepAt? : List Token → Option (Operator × Token)
  | a :: b :: c :: _ => step? a b c
  | _ => none

/-- The operator of the given level that stands in front. -/
def Tier.operatorAt? (tier : Tier) : List Token → Option (Operator × Nat)
  | [] => none
  | t :: ts => tier.operator? t.kind (kindAt ts)

/-- A factorial stands in front. -/
def factorialAt (ts : List Token) : Prop := kindAt ts = some .exclam ∧ kindAt ts.tail ≠ some .equal

/-- A token that a value starts with. -/
def opensValue (ts : List Token) : Prop :=
  kindAt ts = some .string ∨ kindAt ts = some .number ∨ kindAt ts = some .identifier ∨
    kindAt ts = some .lparen

/-- The tokens start with a step of a variable or with a value. -/
def opensAtom (ts : List Token) : Prop := (stepAt? ts).isSome ∨ opensValue ts

/-- The tokens start like an operand of any operation. -/
def opensOperand (ts : List Token) : Prop :=
  opensAtom ts ∨ ((kindAt ts).bind leadingOperator?).isSome

/-- A kind of token that an operand can start with. -/
def isOpening : Token.Kind → Bool
  | .string | .number | .identifier | .lparen | .plus | .minus | .absWord | .sqrtWord | .sinWord
  | .cosWord | .tanWord | .arcsinWord | .arccosWord | .arctanWord | .notWord => true
  | _ => false

theorem stepAt?_isSome {ts : List Token} (h : (stepAt? ts).isSome) :
    ∃ kind, kindAt ts = some kind ∧ isOpening kind = true := by
  match ts, h with
  | a :: b :: c :: _, h =>
    refine ⟨a.kind, rfl, ?_⟩
    simp only [stepAt?, step?] at h
    split at h <;> simp_all [isOpening]

theorem kindAt_of_opensOperand {ts : List Token} (hopens : opensOperand ts) :
    ∃ kind, kindAt ts = some kind ∧ isOpening kind = true := by
  rcases hopens with (hstep | hvalue) | hleading
  · exact stepAt?_isSome hstep
  · rcases hvalue with h | h | h | h <;> exact ⟨_, h, rfl⟩
  · cases hkind : kindAt ts with
    | none => simp [hkind] at hleading
    | some kind =>
      refine ⟨kind, rfl, ?_⟩
      cases kind <;> simp_all [leadingOperator?, isOpening]

-- ---------------------------------------------------------------------------
-- Rules
-- ---------------------------------------------------------------------------

/-- The rules of the grammar. -/
inductive Rule where
  | chain (tier : Tier)
  | operand (tier : Tier)
  /-- The operators of a level that follow `left`. -/
  | extend (tier : Tier) (left : Node)
  | power
  | repeated
  /-- The factorials that follow `operand`. -/
  | factorials (operand : Node)
  | unary
  | atom
  | single

/-- The level below a level. -/
def Tier.tighter? : Tier → Option Tier
  | .conjunction => some .disjunction
  | .disjunction => some .equality
  | .equality => some .order
  | .order => some .sum
  | .sum => some .product
  | .product => none

/-- `Derives rule ts e rest`: by `rule`, the front of `ts` is the expression `e`, and
    `rest` is left. -/
inductive Derives : Rule → List Token → Node → List Token → Prop where
  | chain {tier ts left mid e rest} (first : Derives (.operand tier) ts left mid)
      (more : Derives (.extend tier left) mid e rest) : Derives (.chain tier) ts e rest
  | operandChain {tier inner ts e rest} (below : tier.tighter? = some inner)
      (operand : Derives (.chain inner) ts e rest) : Derives (.operand tier) ts e rest
  | operandPower {tier ts e rest} (below : tier.tighter? = none)
      (operand : Derives .power ts e rest) : Derives (.operand tier) ts e rest
  | extendStop {tier left ts} (stop : tier.operatorAt? ts = none) :
      Derives (.extend tier left) ts left ts
  | extendStep {tier left t ts op more right mid e rest}
      (operator : tier.operator? t.kind (kindAt ts) = some (op, more))
      (operand : Derives (.operand tier) (ts.drop more) right mid)
      (next : Derives (.extend tier (.binary op left right)) mid e rest) :
      Derives (.extend tier left) (t :: ts) e rest
  | powerStop {ts e rest} (base : Derives .repeated ts e rest)
      (stop : kindAt rest ≠ some .caret) : Derives .power ts e rest
  | powerStep {ts base t mid exponent rest} (first : Derives .repeated ts base (t :: mid))
      (caret : t.kind = .caret) (next : Derives .power mid exponent rest) :
      Derives .power ts (.binary .pow base exponent) rest
  | repeated {ts operand mid e rest} (first : Derives .unary ts operand mid)
      (more : Derives (.factorials operand) mid e rest) : Derives .repeated ts e rest
  | factorialsStop {operand ts} (stop : ¬ factorialAt ts) :
      Derives (.factorials operand) ts operand ts
  | factorialsStep {operand t ts e rest} (exclam : factorialAt (t :: ts))
      (next : Derives (.factorials (.unary .factorial operand)) ts e rest) :
      Derives (.factorials operand) (t :: ts) e rest
  | unaryAtom {ts e rest} (operand : Derives .atom ts e rest) : Derives .unary ts e rest
  | unaryLeading {t ts op e rest} (operator : leadingOperator? t.kind = some op)
      (noStep : stepAt? (t :: ts) = none) (operand : Derives .unary ts e rest) :
      Derives .unary (t :: ts) (.unary op e) rest
  | atomStep {a b c t ts op id} (step : step? a b c = some (op, t))
      (name : identifierOf t = .ok id) :
      Derives .atom (a :: b :: c :: ts) (.unary op (.value (.identifier id))) ts
  | atomSingle {ts e rest} (noStep : stepAt? ts = none) (value : Derives .single ts e rest) :
      Derives .atom ts (.value e) rest
  | string {t ts} (kind : t.kind = .string) : Derives .single (t :: ts) (textOf .text .text t) ts
  | number {t ts n} (kind : t.kind = .number) (value : numberOf t = .ok n) :
      Derives .single (t :: ts) (.number n) ts
  | identifier {t ts id} (kind : t.kind = .identifier) (name : identifierOf t = .ok id) :
      Derives .single (t :: ts) (.identifier id) ts
  | group {t ts inner close rest} (opening : t.kind = .lparen)
      (content : Derives (.chain .conjunction) ts inner (close :: rest))
      (closing : close.kind = .rparen) : Derives .single (t :: ts) (.group inner) rest

/-- `Fails rule ts f rest`: by `rule`, the front of `ts` starts an expression but does not
    go on as one, which `f` reports in front of `rest`. -/
inductive Fails : Rule → List Token → Failure ExpressionFault → List Token → Prop where
  | chainFirst {tier ts f rest} (first : Fails (.operand tier) ts f rest) :
      Fails (.chain tier) ts f rest
  | chainMore {tier ts left mid f rest} (first : Derives (.operand tier) ts left mid)
      (more : Fails (.extend tier left) mid f rest) : Fails (.chain tier) ts f rest
  | operandChain {tier inner ts f rest} (below : tier.tighter? = some inner)
      (operand : Fails (.chain inner) ts f rest) : Fails (.operand tier) ts f rest
  | operandPower {tier ts f rest} (below : tier.tighter? = none)
      (operand : Fails .power ts f rest) : Fails (.operand tier) ts f rest
  | extendAbsent {tier left t ts op more}
      (operator : tier.operator? t.kind (kindAt ts) = some (op, more))
      (absent : ¬ opensOperand (ts.drop more)) :
      Fails (.extend tier left) (t :: ts) (.fault (.nothingAfter op left)) (ts.drop more)
  | extendFault {tier left t ts op more f rest}
      (operator : tier.operator? t.kind (kindAt ts) = some (op, more))
      (operand : Fails (.operand tier) (ts.drop more) (.fault f) rest) :
      Fails (.extend tier left) (t :: ts) (.fault (.badOperand op left f)) rest
  | extendToken {tier left t ts op more f rest}
      (operator : tier.operator? t.kind (kindAt ts) = some (op, more))
      (operand : Fails (.operand tier) (ts.drop more) (.token f) rest) :
      Fails (.extend tier left) (t :: ts) (.token f) rest
  | extendStep {tier left t ts op more right mid f rest}
      (operator : tier.operator? t.kind (kindAt ts) = some (op, more))
      (operand : Derives (.operand tier) (ts.drop more) right mid)
      (next : Fails (.extend tier (.binary op left right)) mid f rest) :
      Fails (.extend tier left) (t :: ts) f rest
  | powerFirst {ts f rest} (base : Fails .repeated ts f rest) : Fails .power ts f rest
  | powerAbsent {ts base t mid} (first : Derives .repeated ts base (t :: mid))
      (caret : t.kind = .caret) (absent : ¬ opensOperand mid) :
      Fails .power ts (.fault (.nothingAfter .pow base)) mid
  | powerStep {ts base t mid f rest} (first : Derives .repeated ts base (t :: mid))
      (caret : t.kind = .caret) (next : Fails .power mid f rest) : Fails .power ts f rest
  | repeated {ts f rest} (first : Fails .unary ts f rest) : Fails .repeated ts f rest
  | unaryAtom {ts f rest} (operand : Fails .atom ts f rest) : Fails .unary ts f rest
  | unaryAbsent {t ts op} (operator : leadingOperator? t.kind = some op)
      (noStep : stepAt? (t :: ts) = none) (absent : ¬ opensOperand ts) :
      Fails .unary (t :: ts) (.fault (.missingOperand op ts.head?)) ts
  | unaryLeading {t ts op f rest} (operator : leadingOperator? t.kind = some op)
      (noStep : stepAt? (t :: ts) = none) (operand : Fails .unary ts f rest) :
      Fails .unary (t :: ts) f rest
  | atomStep {a b c t ts op e} (step : step? a b c = some (op, t))
      (name : identifierOf t = .error e) :
      Fails .atom (a :: b :: c :: ts) (.token e) (a :: b :: c :: ts)
  | atomSingle {ts f rest} (noStep : stepAt? ts = none) (value : Fails .single ts f rest) :
      Fails .atom ts f rest
  | number {t ts e} (kind : t.kind = .number) (value : numberOf t = .error e) :
      Fails .single (t :: ts) (.token e) ts
  | identifier {t ts e} (kind : t.kind = .identifier) (name : identifierOf t = .error e) :
      Fails .single (t :: ts) (.token e) ts
  | groupAbsent {t ts} (opening : t.kind = .lparen) (absent : ¬ opensOperand ts) :
      Fails .single (t :: ts) (.fault (.expected ts.head?)) ts
  | groupContent {t ts f rest} (opening : t.kind = .lparen)
      (content : Fails (.chain .conjunction) ts f rest) : Fails .single (t :: ts) f rest
  | groupUnclosed {t ts inner rest} (opening : t.kind = .lparen)
      (content : Derives (.chain .conjunction) ts inner rest)
      (unclosed : kindAt rest ≠ some .rparen) :
      Fails .single (t :: ts) (.fault (.unclosed inner)) rest

-- ---------------------------------------------------------------------------
-- Every outcome has a derivation
-- ---------------------------------------------------------------------------

/-- The tokens that a rule starts to read at all. -/
def Rule.opens : Rule → List Token → Prop
  | .extend .., _ | .factorials _, _ => True
  | .atom, ts => opensAtom ts
  | .single, ts => opensValue ts
  | _, ts => opensOperand ts

/-- The outcome of a rule is what the derivations say about it. -/
def Explained (rule : Rule) (ts : List Token) {n : Nat} : ExpressionAttempt n → Prop
  | none => ¬ rule.opens ts
  | some (.found e rest _) => Derives rule ts e rest
  | some (.failed f rest _) => Fails rule ts f rest

/-- An outcome that one rule takes over from another is explained if the derivations
    carry over. -/
theorem Explained.imp {inner rule : Rule} {us ts : List Token} {n : Nat}
    {attempt : ExpressionAttempt n} (explained : Explained inner us attempt)
    (opens : rule.opens ts → inner.opens us)
    (derives : ∀ {e rest}, Derives inner us e rest → Derives rule ts e rest)
    (fails : ∀ {f rest}, Fails inner us f rest → Fails rule ts f rest) :
    Explained rule ts attempt := by
  match attempt, explained with
  | none, absent => exact fun h => absent (opens h)
  | some (.found e rest _), explained => exact derives explained
  | some (.failed f rest _), explained => exact fails explained

@[simp] theorem explained_widen {rule : Rule} {ts : List Token} {m n : Nat} {h : m ≤ n}
    {step : ExpressionStep m} :
    Explained rule ts (some (step.widen h)) ↔ Explained rule ts (some step) := by
  cases step <;> rfl

/-- A value that no step of a variable starts with is an atom. -/
theorem Explained.value {ts : List Token} {n : Nat} {attempt : ExpressionAttempt n}
    (explained : Explained .single ts attempt) (noStep : stepAt? ts = none) :
    Explained .atom ts (attempt.map (·.map .value)) := by
  match attempt, explained with
  | none, absent =>
    rintro (h | h)
    · simp [noStep] at h
    · exact absent h
  | some (.found e rest _), value => exact .atomSingle noStep value
  | some (.failed f rest _), value => exact .atomSingle noStep value

theorem explained_factorials (operand : Node) (ts : List Token) :
    Explained (.factorials operand) ts (some (factorials operand ts)) := by
  induction ts generalizing operand with
  | nil => exact .factorialsStop (by simp [factorialAt])
  | cons t ts ih =>
    unfold factorials
    split
    · next h =>
      have exclam : factorialAt (t :: ts) := ⟨congrArg some h.1, h.2⟩
      refine explained_widen.mpr ((ih _).imp id (.factorialsStep exclam) ?_)
      intro f rest fails
      cases fails
    · next h =>
      refine .factorialsStop fun exclam => h ⟨?_, exclam.2⟩
      exact Option.some.inj exclam.1

mutual
theorem explained_chain (tier : Tier) (ts : List Token) :
    Explained (.chain tier) ts (chain tier ts) := by
  have first := explained_operand tier ts
  unfold chain
  match h : operand tier ts, first with
  | none, absent => exact absent
  | some (.failed f rest _), first => exact .chainFirst first
  | some (.found left rest _), first =>
    have more := explained_extend tier left rest
    exact explained_widen.mpr (more.imp (fun _ => trivial) (.chain first) (.chainMore first))
termination_by 20 * ts.length + 2 * tier.depth + 5

theorem explained_operand (tier : Tier) (ts : List Token) :
    Explained (.operand tier) ts (operand tier ts) := by
  unfold operand
  match tier with
  | .conjunction =>
    exact (explained_chain .disjunction ts).imp id (.operandChain rfl) (.operandChain rfl)
  | .disjunction =>
    exact (explained_chain .equality ts).imp id (.operandChain rfl) (.operandChain rfl)
  | .equality => exact (explained_chain .order ts).imp id (.operandChain rfl) (.operandChain rfl)
  | .order => exact (explained_chain .sum ts).imp id (.operandChain rfl) (.operandChain rfl)
  | .sum => exact (explained_chain .product ts).imp id (.operandChain rfl) (.operandChain rfl)
  | .product => exact (explained_power ts).imp id (.operandPower rfl) (.operandPower rfl)
termination_by 20 * ts.length + 2 * tier.depth + 4
decreasing_by all_goals simp only [Tier.depth]; omega

theorem explained_extend (tier : Tier) (left : Node) (ts : List Token) :
    Explained (.extend tier left) ts (some (extend tier left ts)) := by
  match ts with
  | [] =>
    unfold extend
    exact .extendStop rfl
  | t :: ts =>
    unfold extend
    cases operator : tier.operator? t.kind (ts.head?.map (·.kind)) with
    | none => exact .extendStop operator
    | some spelled =>
      obtain ⟨op, more⟩ := spelled
      have right := explained_operand tier (ts.drop more)
      simp only
      match operand tier (ts.drop more), right with
      | none, absent => exact .extendAbsent operator absent
      | some (.failed (.fault f) rest _), right => exact .extendFault operator right
      | some (.failed (.token f) rest _), right => exact .extendToken operator right
      | some (.found right rest shorter), operand =>
        have next := explained_extend tier (.binary op left right) rest
        exact explained_widen.mpr
          (next.imp id (.extendStep operator operand) (.extendStep operator operand))
termination_by 20 * ts.length
decreasing_by
  · simp only [List.length_cons, List.length_drop]
    cases tier <;> simp only [Tier.depth] <;> omega
  · simp only [List.length_cons, List.length_drop] at shorter ⊢
    omega

theorem explained_power (ts : List Token) : Explained .power ts (power ts) := by
  have first := explained_repeated ts
  unfold power
  match repeated ts, first with
  | none, absent => exact absent
  | some (.failed f rest _), first => exact .powerFirst first
  | some (.found base [] _), first => exact .powerStop first (by simp)
  | some (.found base (t :: rest) shorter), first =>
    simp only
    split
    · next caret =>
      have next := explained_power rest
      match power rest, next with
      | none, absent => exact .powerAbsent first caret absent
      | some (.failed f _ _), next => exact .powerStep first caret next
      | some (.found exponent _ _), next => exact .powerStep first caret next
    · next caret => exact .powerStop first (by simpa using caret)
termination_by 20 * ts.length + 4
decreasing_by
  · omega
  · simp only [List.length_cons] at shorter; omega

theorem explained_repeated (ts : List Token) : Explained .repeated ts (repeated ts) := by
  have first := explained_unary ts
  unfold repeated
  match unary ts, first with
  | none, absent => exact absent
  | some (.failed f rest _), first => exact .repeated first
  | some (.found value rest _), first =>
    have more := explained_factorials value rest
    refine explained_widen.mpr (more.imp (fun _ => trivial) (.repeated first) ?_)
    intro f rest fails
    cases fails
termination_by 20 * ts.length + 3

theorem explained_unary (ts : List Token) : Explained .unary ts (unary ts) := by
  match ts with
  | [] =>
    unfold unary
    simp [Explained, Rule.opens, opensOperand, opensAtom, opensValue, stepAt?]
  | t :: ts =>
    have value := explained_atom (t :: ts)
    unfold unary
    match atom (t :: ts), value with
    | some (.found e rest _), value => exact .unaryAtom value
    | some (.failed f rest _), value => exact .unaryAtom value
    | none, noAtom =>
      have noStep : stepAt? (t :: ts) = none := by
        simpa using fun h => noAtom (.inl h)
      cases operator : leadingOperator? t.kind with
      | none =>
        rintro (h | h)
        · exact noAtom h
        · simp [operator] at h
      | some op =>
        have operand := explained_unary ts
        match unary ts, operand with
        | none, absent => exact .unaryAbsent operator noStep absent
        | some (.failed f rest _), operand => exact .unaryLeading operator noStep operand
        | some (.found value rest _), operand => exact .unaryLeading operator noStep operand
termination_by 20 * ts.length + 2
decreasing_by all_goals simp only [List.length_cons]; omega

theorem explained_atom (ts : List Token) : Explained .atom ts (atom ts) := by
  have value := explained_single ts
  unfold atom
  split
  · next a b c rest =>
    cases step : step? a b c with
    | none => exact value.value step
    | some found =>
      obtain ⟨op, t⟩ := found
      cases name : identifierOf t with
      | error e =>
        simp only [name]
        exact .atomStep step name
      | ok id =>
        simp only [name]
        exact .atomStep step name
  · next short =>
    apply value.value
    unfold stepAt?
    split
    · next a b c rest => exact (short a b c rest rfl).elim
    · rfl
termination_by 20 * ts.length + 1

theorem explained_single (ts : List Token) : Explained .single ts (single ts) := by
  match ts with
  | [] =>
    unfold single
    simp [Explained, Rule.opens, opensValue]
  | t :: ts =>
    unfold single
    split
    · next kind => exact .string kind
    · next kind =>
      cases value : numberOf t with
      | error e => exact .number kind value
      | ok n => exact .number kind value
    · next kind =>
      cases name : identifierOf t with
      | error e => exact .identifier kind name
      | ok id => exact .identifier kind name
    · next opening =>
      have content := explained_chain .conjunction ts
      match chain .conjunction ts, content with
      | none, absent => exact .groupAbsent opening absent
      | some (.failed f rest _), content => exact .groupContent opening content
      | some (.found inner [] _), content => exact .groupUnclosed opening content (by simp)
      | some (.found inner (close :: rest) _), content =>
        simp only
        split
        · next closing => exact .group opening content closing
        · next closing => exact .groupUnclosed opening content (by simpa using closing)
    · simp_all [Explained, Rule.opens, opensValue]
termination_by 20 * ts.length
decreasing_by simp only [List.length_cons, Tier.depth]; omega
end

/-- Where an expression stops: within one, or before one starts. -/
inductive Stuck : List Token → Failure ExpressionFault → List Token → Prop where
  | within {ts f rest} (fails : Fails (.chain .conjunction) ts f rest) : Stuck ts f rest
  | before {ts} (absent : ¬ opensOperand ts) : Stuck ts (.fault (.expected ts.head?)) ts

theorem derives_of_expression {ts rest : List Token} {e : Node} {h : rest.length < ts.length}
    (found : expression ts = .found e rest h) : Derives (.chain .conjunction) ts e rest := by
  have explained := explained_chain .conjunction ts
  unfold expression at found
  match chain .conjunction ts, explained, found with
  | none, _, found => cases found
  | some _, explained, rfl => exact explained

theorem stuck_of_expression {ts rest : List Token} {f : Failure ExpressionFault}
    {h : rest.length ≤ ts.length} (failed : expression ts = .failed f rest h) :
    Stuck ts f rest := by
  have explained := explained_chain .conjunction ts
  unfold expression at failed
  match chain .conjunction ts, explained, failed with
  | none, absent, rfl => exact .before absent
  | some _, explained, rfl => exact .within explained

-- ---------------------------------------------------------------------------
-- What can be derived is found
-- ---------------------------------------------------------------------------

/-- What the parser makes of the tokens by a rule: the result and what is left. -/
def Rule.outcome :
    Rule → List Token → Option (Except (Failure ExpressionFault) Node × List Token)
  | .chain tier, ts => (Parse.chain tier ts).map Step.result
  | .operand tier, ts => (Parse.operand tier ts).map Step.result
  | .extend tier left, ts => some (Parse.extend tier left ts).result
  | .power, ts => (Parse.power ts).map Step.result
  | .repeated, ts => (Parse.repeated ts).map Step.result
  | .factorials first, ts => some (Parse.factorials first ts).result
  | .unary, ts => (Parse.unary ts).map Step.result
  | .atom, ts => (Parse.atom ts).map Step.result
  | .single, ts => (Parse.single ts).map Step.result

theorem Step.eq_found {φ α : Type} {n : Nat} {step : Step φ α n} {value : α} {rest : List Token}
    (h : step.result = (.ok value, rest)) : ∃ fewer, step = .found value rest fewer := by
  cases step with
  | found _ _ fewer =>
    obtain ⟨rfl, rfl⟩ : _ = value ∧ _ = rest := by simpa [Step.result] using h
    exact ⟨fewer, rfl⟩
  | failed => simp [Step.result] at h

theorem eq_some_found {φ α : Type} {n : Nat} {attempt : Attempt φ α n} {value : α}
    {rest : List Token} (h : attempt.map Step.result = some (.ok value, rest)) :
    ∃ fewer, attempt = some (.found value rest fewer) := by
  obtain ⟨step, rfl, found⟩ := Option.map_eq_some_iff.mp h
  obtain ⟨fewer, rfl⟩ := step.eq_found found
  exact ⟨fewer, rfl⟩

theorem Step.eq_failed {φ α : Type} {n : Nat} {step : Step φ α n} {failure : Failure φ}
    {rest : List Token} (h : step.result = (.error failure, rest)) :
    ∃ within, step = .failed failure rest within := by
  cases step with
  | found => simp [Step.result] at h
  | failed _ _ within =>
    obtain ⟨rfl, rfl⟩ : _ = failure ∧ _ = rest := by simpa [Step.result] using h
    exact ⟨within, rfl⟩

theorem eq_some_failed {φ α : Type} {n : Nat} {attempt : Attempt φ α n} {failure : Failure φ}
    {rest : List Token} (h : attempt.map Step.result = some (.error failure, rest)) :
    ∃ within, attempt = some (.failed failure rest within) := by
  obtain ⟨step, rfl, failed⟩ := Option.map_eq_some_iff.mp h
  obtain ⟨within, rfl⟩ := step.eq_failed failed
  exact ⟨within, rfl⟩

theorem atom_eq_single {ts : List Token} (noStep : stepAt? ts = none) :
    atom ts = (single ts).map (·.map .value) := by
  unfold atom
  split
  · next a b c rest =>
    have noStep : step? a b c = none := noStep
    simp only [noStep]
  · rfl

/-- No value starts with an operator. -/
theorem atom_eq_none {t : Token} {ts : List Token} {op : Operator}
    (operator : leadingOperator? t.kind = some op) (noStep : stepAt? (t :: ts) = none) :
    atom (t :: ts) = none := by
  have noValue : single (t :: ts) = none := by
    unfold single
    split <;> simp_all [leadingOperator?]
  rw [atom_eq_single noStep, noValue]
  rfl

/-- What a rule derives, the parser finds by it. -/
theorem Derives.outcome {rule : Rule} {ts rest : List Token} {e : Node}
    (derives : Derives rule ts e rest) : rule.outcome ts = some (.ok e, rest) := by
  induction derives with
  | chain _ _ first more =>
    obtain ⟨_, first⟩ := eq_some_found first
    obtain ⟨_, more⟩ := Step.eq_found (Option.some.inj more)
    simp [Rule.outcome, Parse.chain, first, more, Step.widen, Step.result]
  | @operandChain tier _ _ _ _ below _ operand =>
    cases tier <;> cases below <;> simpa only [Rule.outcome, Parse.operand] using operand
  | @operandPower tier _ _ _ below _ operand =>
    cases tier <;> cases below
    simpa only [Rule.outcome, Parse.operand] using operand
  | @extendStop tier left ts stop =>
    cases ts with
    | nil => simp [Rule.outcome, Parse.extend, Step.result]
    | cons t ts =>
      have stop : tier.operator? t.kind (ts.head?.map (·.kind)) = none := stop
      simp [Rule.outcome, Parse.extend, stop, Step.result]
  | @extendStep tier left t ts op more right mid e rest operator _ _ operand next =>
    obtain ⟨_, operand⟩ := eq_some_found operand
    obtain ⟨_, next⟩ := Step.eq_found (Option.some.inj next)
    have operator : tier.operator? t.kind (ts.head?.map (·.kind)) = some (op, more) := operator
    simp [Rule.outcome, Parse.extend, operator, operand, next, Step.widen, Step.result]
  | @powerStop ts e rest _ stop base =>
    obtain ⟨_, base⟩ := eq_some_found base
    cases rest with
    | nil => simp [Rule.outcome, Parse.power, base, Step.result]
    | cons t rest =>
      have stop : t.kind ≠ .caret := by simpa using stop
      simp [Rule.outcome, Parse.power, base, stop, Step.result]
  | @powerStep ts _ _ _ _ _ _ caret _ first next =>
    obtain ⟨_, first⟩ := eq_some_found first
    obtain ⟨_, next⟩ := eq_some_found next
    rw [Rule.outcome, Parse.power]
    simp [first, caret, next, Step.result]
  | repeated _ _ first more =>
    obtain ⟨_, first⟩ := eq_some_found first
    obtain ⟨_, more⟩ := Step.eq_found (Option.some.inj more)
    simp [Rule.outcome, Parse.repeated, first, more, Step.widen, Step.result]
  | @factorialsStop operand ts stop =>
    cases ts with
    | nil => simp [Rule.outcome, Parse.factorials, Step.result]
    | cons t ts =>
      have stop : ¬ (t.kind = .exclam ∧ ts.head?.map (·.kind) ≠ some .equal) :=
        fun h => stop ⟨congrArg some h.1, h.2⟩
      rw [Rule.outcome, Parse.factorials, if_neg stop]
      rfl
  | @factorialsStep operand t ts e rest exclam _ next =>
    obtain ⟨_, next⟩ := Step.eq_found (Option.some.inj next)
    have exclam : t.kind = .exclam ∧ ts.head?.map (·.kind) ≠ some .equal :=
      ⟨Option.some.inj exclam.1, exclam.2⟩
    rw [Rule.outcome, Parse.factorials, if_pos exclam, next]
    rfl
  | @unaryAtom ts e rest _ operand =>
    obtain ⟨_, operand⟩ := eq_some_found operand
    cases ts with
    | nil => simp [Parse.atom, Parse.single] at operand
    | cons t ts => simp [Rule.outcome, Parse.unary, operand, Step.result]
  | @unaryLeading t ts op e rest operator noStep _ operand =>
    obtain ⟨_, operand⟩ := eq_some_found operand
    rw [Rule.outcome, Parse.unary, atom_eq_none operator noStep]
    simp [operator, operand, Step.behind, Step.widen, Step.result]
  | atomStep step name => simp [Rule.outcome, Parse.atom, step, name, Step.result]
  | @atomSingle ts e rest noStep _ value =>
    obtain ⟨_, value⟩ := eq_some_found value
    simp [Rule.outcome, atom_eq_single noStep, value, Step.map, Step.result]
  | string kind => simp [Rule.outcome, Parse.single, kind, Step.ofToken, Step.result]
  | number kind value =>
    simp [Rule.outcome, Parse.single, kind, value, Step.ofToken, Step.result]
  | identifier kind name =>
    simp [Rule.outcome, Parse.single, kind, name, Step.ofToken, Step.result]
  | group opening _ closing content =>
    obtain ⟨_, content⟩ := eq_some_found content
    simp [Rule.outcome, Parse.single, opening, content, closing, Step.result]

theorem Derives.expression {ts rest : List Token} {e : Node}
    (derives : Derives (.chain .conjunction) ts e rest) :
    ∃ fewer, expression ts = .found e rest fewer := by
  obtain ⟨fewer, found⟩ := eq_some_found derives.outcome
  exact ⟨fewer, by rw [Parse.expression, found]⟩

/-- A rule reads only tokens that it starts with. -/
theorem Derives.opens {rule : Rule} {ts rest : List Token} {e : Node}
    (derives : Derives rule ts e rest) : rule.opens ts := by
  induction derives with
  | chain _ _ first _ => exact first
  | operandChain _ _ operand => exact operand
  | operandPower _ _ operand => exact operand
  | extendStop => trivial
  | extendStep => trivial
  | powerStop _ _ base => exact base
  | powerStep _ _ _ first _ => exact first
  | repeated _ _ first _ => exact first
  | factorialsStop => trivial
  | factorialsStep => trivial
  | unaryAtom _ operand => exact .inl operand
  | unaryLeading operator => exact .inr (by simp [operator])
  | atomStep step => exact .inl (by simp [stepAt?, step])
  | atomSingle _ _ value => exact .inr value
  | string kind => exact .inl (by simp [kind])
  | number kind => exact .inr (.inl (by simp [kind]))
  | identifier kind => exact .inr (.inr (.inl (by simp [kind])))
  | group opening => exact .inr (.inr (.inr (by simp [opening])))

theorem Fails.opens {rule : Rule} {ts rest : List Token} {f : Failure ExpressionFault}
    (fails : Fails rule ts f rest) : rule.opens ts := by
  induction fails with
  | chainFirst _ first => exact first
  | chainMore first => exact first.opens
  | operandChain _ _ operand => exact operand
  | operandPower _ _ operand => exact operand
  | extendAbsent => trivial
  | extendFault => trivial
  | extendToken => trivial
  | extendStep => trivial
  | powerFirst _ base => exact base
  | powerAbsent first => exact first.opens
  | powerStep first => exact first.opens
  | repeated _ first => exact first
  | unaryAtom _ operand => exact .inl operand
  | unaryAbsent operator => exact .inr (by simp [operator])
  | unaryLeading operator => exact .inr (by simp [operator])
  | atomStep step => exact .inl (by simp [stepAt?, step])
  | atomSingle _ _ value => exact .inr value
  | number kind => exact .inr (.inl (by simp [kind]))
  | identifier kind => exact .inr (.inr (.inl (by simp [kind])))
  | groupAbsent opening => exact .inr (.inr (.inr (by simp [opening])))
  | groupContent opening => exact .inr (.inr (.inr (by simp [opening])))
  | groupUnclosed opening => exact .inr (.inr (.inr (by simp [opening])))

theorem Explained.eq_none {rule : Rule} {ts : List Token} {n : Nat} {attempt : ExpressionAttempt n}
    (explained : Explained rule ts attempt) (absent : ¬ rule.opens ts) : attempt = none := by
  match attempt, explained with
  | none, _ => rfl
  | some (.found _ _ _), derives => exact absurd derives.opens absent
  | some (.failed _ _ _), fails => exact absurd fails.opens absent

/-- Where a rule fails, the parser reports the same failure. -/
theorem Fails.outcome {rule : Rule} {ts rest : List Token} {f : Failure ExpressionFault}
    (fails : Fails rule ts f rest) : rule.outcome ts = some (.error f, rest) := by
  induction fails with
  | chainFirst _ first =>
    obtain ⟨_, first⟩ := eq_some_failed first
    simp [Rule.outcome, Parse.chain, first, Step.result]
  | chainMore first _ more =>
    obtain ⟨_, first⟩ := eq_some_found first.outcome
    obtain ⟨_, more⟩ := Step.eq_failed (Option.some.inj more)
    simp [Rule.outcome, Parse.chain, first, more, Step.widen, Step.result]
  | @operandChain tier _ _ _ _ below _ operand =>
    cases tier <;> cases below <;> simpa only [Rule.outcome, Parse.operand] using operand
  | @operandPower tier _ _ _ below _ operand =>
    cases tier <;> cases below
    simpa only [Rule.outcome, Parse.operand] using operand
  | @extendAbsent tier left t ts op more operator absent =>
    have operator : tier.operator? t.kind (ts.head?.map (·.kind)) = some (op, more) := operator
    have absent := (explained_operand tier (ts.drop more)).eq_none absent
    simp [Rule.outcome, Parse.extend, operator, absent, Step.result]
  | @extendFault tier left t ts op more f rest operator _ operand =>
    have operator : tier.operator? t.kind (ts.head?.map (·.kind)) = some (op, more) := operator
    obtain ⟨_, operand⟩ := eq_some_failed operand
    simp [Rule.outcome, Parse.extend, operator, operand, Step.result]
  | @extendToken tier left t ts op more f rest operator _ operand =>
    have operator : tier.operator? t.kind (ts.head?.map (·.kind)) = some (op, more) := operator
    obtain ⟨_, operand⟩ := eq_some_failed operand
    simp [Rule.outcome, Parse.extend, operator, operand, Step.result]
  | @extendStep tier left t ts op more right mid f rest operator operand _ next =>
    have operator : tier.operator? t.kind (ts.head?.map (·.kind)) = some (op, more) := operator
    obtain ⟨_, operand⟩ := eq_some_found operand.outcome
    obtain ⟨_, next⟩ := Step.eq_failed (Option.some.inj next)
    simp [Rule.outcome, Parse.extend, operator, operand, next, Step.widen, Step.result]
  | powerFirst _ base =>
    obtain ⟨_, base⟩ := eq_some_failed base
    simp [Rule.outcome, Parse.power, base, Step.result]
  | @powerAbsent _ _ _ mid first caret absent =>
    obtain ⟨_, first⟩ := eq_some_found first.outcome
    have absent := (explained_power mid).eq_none absent
    rw [Rule.outcome, Parse.power]
    simp [first, caret, absent, Step.result]
  | powerStep first caret _ next =>
    obtain ⟨_, first⟩ := eq_some_found first.outcome
    obtain ⟨_, next⟩ := eq_some_failed next
    rw [Rule.outcome, Parse.power]
    simp [first, caret, next, Step.result]
  | repeated _ first =>
    obtain ⟨_, first⟩ := eq_some_failed first
    simp [Rule.outcome, Parse.repeated, first, Step.result]
  | @unaryAtom ts _ _ _ operand =>
    obtain ⟨_, operand⟩ := eq_some_failed operand
    cases ts with
    | nil => simp [Parse.atom, Parse.single] at operand
    | cons t ts => simp [Rule.outcome, Parse.unary, operand, Step.result]
  | @unaryAbsent t ts op operator noStep absent =>
    have absent := (explained_unary ts).eq_none absent
    rw [Rule.outcome, Parse.unary, atom_eq_none operator noStep]
    simp [operator, absent, Step.stuck, Step.behind, Step.widen, Step.result]
  | unaryLeading operator noStep _ operand =>
    obtain ⟨_, operand⟩ := eq_some_failed operand
    rw [Rule.outcome, Parse.unary, atom_eq_none operator noStep]
    simp [operator, operand, Step.behind, Step.widen, Step.result]
  | atomStep step name => simp [Rule.outcome, Parse.atom, step, name, Step.stuck, Step.result]
  | atomSingle noStep _ value =>
    obtain ⟨_, value⟩ := eq_some_failed value
    simp [Rule.outcome, atom_eq_single noStep, value, Step.map, Step.result]
  | number kind value =>
    simp [Rule.outcome, Parse.single, kind, value, Step.stuck, Step.behind, Step.widen, Step.result]
  | identifier kind name =>
    simp [Rule.outcome, Parse.single, kind, name, Step.stuck, Step.behind, Step.widen, Step.result]
  | @groupAbsent t ts opening absent =>
    have absent := (explained_chain .conjunction ts).eq_none absent
    simp [Rule.outcome, Parse.single, opening, absent, Step.stuck, Step.behind, Step.widen,
      Step.result]
  | groupContent opening _ content =>
    obtain ⟨_, content⟩ := eq_some_failed content
    simp [Rule.outcome, Parse.single, opening, content, Step.behind, Step.widen, Step.result]
  | @groupUnclosed t ts inner rest opening content unclosed =>
    obtain ⟨_, content⟩ := eq_some_found content.outcome
    cases rest with
    | nil => simp [Rule.outcome, Parse.single, opening, content, Step.result]
    | cons close rest =>
      have unclosed : close.kind ≠ .rparen := by simpa using unclosed
      simp [Rule.outcome, Parse.single, opening, content, unclosed, Step.result]

end Yolol.Parse

-- SUMMARY: The grammar of statements as derivations, and the parser that finds exactly those.
import Yolol.Parse.Line
import Yolol.Proofs.Derivation

/-!
# Derivations of statements

Statements are derived from expressions. A conditional is derived in two phases: its
front, and then one statement after the other until its end, with those read so far
carried along. As for expressions, a second relation says where a statement breaks off.
-/

namespace Yolol.Parse

/-- The assignment that stands in front. -/
def assignmentAt? : List Token → Option (Operator × Nat)
  | a :: b :: c :: _ => assignment? a b c
  | _ => none

/-- The two forms of an assignment: an equals sign that is no comparison, and an operator
    in front of an equals sign. -/
theorem assignmentAt?_eq_some {ts : List Token} {op : Operator} {more : Nat}
    (h : assignmentAt? ts = some (op, more)) :
    ∃ a b c us, ts = a :: b :: c :: us ∧ a.kind = .identifier ∧
      ((b.kind = .equal ∧ c.kind ≠ .equal ∧ op = .assign ∧ more = 1) ∨
        (c.kind = .equal ∧ compoundAssignment? b.kind = some op ∧ more = 2)) := by
  match ts, h with
  | a :: b :: c :: us, h =>
    refine ⟨a, b, c, us, rfl, ?_⟩
    simp only [assignmentAt?, assignment?] at h
    split at h
    · cases h
    · next hname =>
      refine ⟨Decidable.of_not_not hname, ?_⟩
      split at h
      · next hequal =>
        split at h
        · cases h
        · next hplain =>
          cases h
          exact .inl ⟨hequal, hplain, rfl, rfl⟩
      · split at h
        · next hequal =>
          obtain ⟨_, hcompound, h⟩ := Option.map_eq_some_iff.mp h
          cases h
          exact .inr ⟨hequal, hcompound, rfl⟩
        · cases h

/-- What is being read of a statement. -/
inductive Phase where
  | statement
  /-- A conditional of which `body` and, behind `else`, `otherwise` have been read. -/
  | branches (condition : Node) (body : List Node) (otherwise : Option (List Node))

/-- `Composes phase ts s rest`: the front of `ts` is the statement `s`, or what is still to
    be read of it, and `rest` is left. -/
inductive Composes : Phase → List Token → Node → List Token → Prop where
  | comment {t ts} (kind : t.kind = .comment) :
      Composes .statement (t :: ts) (textOf .comment .comment t) ts
  | goto {t ts e rest} (kind : t.kind = .gotoWord)
      (target : Derives (.chain .conjunction) ts e rest) :
      Composes .statement (t :: ts) (.goto e) rest
  | assignment {a ts op more id e rest} (spelled : assignmentAt? (a :: ts) = some (op, more))
      (name : identifierOf a = .ok id)
      (value : Derives (.chain .conjunction) (ts.drop more) e rest) :
      Composes .statement (a :: ts) (.assignment (.identifier id) op e) rest
  | evaluation {ts e rest} (plain : assignmentAt? ts = none)
      (value : Derives (.chain .conjunction) ts e rest) :
      Composes .statement ts (.evaluation e) rest
  | conditional {t ts condition u mid s rest} (kind : t.kind = .ifWord)
      (test : Derives (.chain .conjunction) ts condition (u :: mid))
      (thenWord : u.kind = .thenWord)
      (branches : Composes (.branches condition [] none) mid s rest) :
      Composes .statement (t :: ts) s rest
  | close {condition body otherwise t ts} (kind : t.kind = .endWord) :
      Composes (.branches condition body otherwise) (t :: ts)
        (.conditional condition body (otherwise.getD [])) ts
  | turn {condition body t ts s rest} (kind : t.kind = .elseWord)
      (next : Composes (.branches condition body (some [])) ts s rest) :
      Composes (.branches condition body none) (t :: ts) s rest
  | bodyStep {condition body ts s mid r rest} (first : Composes .statement ts s mid)
      (next : Composes (.branches condition (body ++ [s]) none) mid r rest) :
      Composes (.branches condition body none) ts r rest
  | otherwiseStep {condition body otherwise ts s mid r rest}
      (first : Composes .statement ts s mid)
      (next : Composes (.branches condition body (some (otherwise ++ [s]))) mid r rest) :
      Composes (.branches condition body (some otherwise)) ts r rest

/-- `Breaks phase ts f rest`: the front of `ts` does not go on as a statement, which `f`
    reports in front of `rest`. -/
inductive Breaks : Phase → List Token → Failure StatementFault → List Token → Prop where
  | goto {t ts f rest} (kind : t.kind = .gotoWord) (target : Stuck ts f rest) :
      Breaks .statement (t :: ts) f.ofExpression rest
  | assignmentName {a ts op more e} (spelled : assignmentAt? (a :: ts) = some (op, more))
      (name : identifierOf a = .error e) : Breaks .statement (a :: ts) (.token e) (a :: ts)
  | assignment {a ts op more id f rest} (spelled : assignmentAt? (a :: ts) = some (op, more))
      (name : identifierOf a = .ok id) (value : Stuck (ts.drop more) f rest) :
      Breaks .statement (a :: ts) f.ofExpression rest
  | evaluation {ts f rest} (plain : assignmentAt? ts = none) (value : Stuck ts f rest) :
      Breaks .statement ts f.ofExpression rest
  | test {t ts f rest} (kind : t.kind = .ifWord) (test : Stuck ts f rest) :
      Breaks .statement (t :: ts) f.ofExpression rest
  | missingThen {t ts condition rest} (kind : t.kind = .ifWord)
      (test : Derives (.chain .conjunction) ts condition rest)
      (stop : kindAt rest ≠ some .thenWord) :
      Breaks .statement (t :: ts) (.fault (.missingThen rest.head?)) rest
  | conditional {t ts condition u mid f rest} (kind : t.kind = .ifWord)
      (test : Derives (.chain .conjunction) ts condition (u :: mid))
      (thenWord : u.kind = .thenWord)
      (branches : Breaks (.branches condition [] none) mid f rest) :
      Breaks .statement (t :: ts) f rest
  | missingEnd {condition body otherwise ts}
      (stop : kindAt ts = none ∨ kindAt ts = some .newline) :
      Breaks (.branches condition body otherwise) ts
        (.fault (.missingEnd condition body (otherwise.getD []))) ts
  | repeatedElse {condition body otherwise t ts} (kind : t.kind = .elseWord) :
      Breaks (.branches condition body (some otherwise)) (t :: ts)
        (.fault (.repeatedElse condition body otherwise)) (t :: ts)
  | turn {condition body t ts f rest} (kind : t.kind = .elseWord)
      (next : Breaks (.branches condition body (some [])) ts f rest) :
      Breaks (.branches condition body none) (t :: ts) f rest
  | first {condition body otherwise ts f rest} (first : Breaks .statement ts f rest) :
      Breaks (.branches condition body otherwise) ts f rest
  | bodyStep {condition body ts s mid f rest} (first : Composes .statement ts s mid)
      (next : Breaks (.branches condition (body ++ [s]) none) mid f rest) :
      Breaks (.branches condition body none) ts f rest
  | otherwiseStep {condition body otherwise ts s mid f rest}
      (first : Composes .statement ts s mid)
      (next : Breaks (.branches condition body (some (otherwise ++ [s]))) mid f rest) :
      Breaks (.branches condition body (some otherwise)) ts f rest

/-! ## Every outcome has a derivation -/

/-- The outcome of a phase is what the derivations say about it. -/
def Accounted (phase : Phase) (ts : List Token) {n : Nat} : StatementStep n → Prop
  | .found s rest _ => Composes phase ts s rest
  | .failed f rest _ => Breaks phase ts f rest

@[simp] theorem accounted_widen {phase : Phase} {ts : List Token} {m n : Nat} {h : m ≤ n}
    {step : StatementStep m} : Accounted phase ts (step.widen h) ↔ Accounted phase ts step := by
  cases step <;> rfl

/-- An outcome that one phase takes over from another is accounted for if the derivations
    carry over. -/
theorem Accounted.imp {inner phase : Phase} {us ts : List Token} {n : Nat}
    {step : StatementStep n} (haccounted : Accounted inner us step)
    (hcomposes : ∀ {s rest}, Composes inner us s rest → Composes phase ts s rest)
    (hbreaks : ∀ {f rest}, Breaks inner us f rest → Breaks phase ts f rest) :
    Accounted phase ts step := by
  cases step with
  | found s rest _ => exact hcomposes haccounted
  | failed f rest _ => exact hbreaks haccounted

theorem accounted_expressionStatement {ts us : List Token} {make : Node → Node}
    (hcomposes : ∀ {e rest}, Derives (.chain .conjunction) us e rest →
      Composes .statement ts (make e) rest)
    (hbreaks : ∀ {f rest}, Stuck us f rest → Breaks .statement ts f.ofExpression rest) :
    Accounted .statement ts (expressionStatement make us) := by
  unfold expressionStatement
  split
  · next hfound => exact hcomposes (derives_of_expression hfound)
  · next hfailed => exact hbreaks (stuck_of_expression hfailed)

theorem accounted_evaluation {ts : List Token} (hplain : assignmentAt? ts = none) :
    Accounted .statement ts (expressionStatement .evaluation ts) :=
  accounted_expressionStatement (.evaluation hplain) (.evaluation hplain)

theorem accounted_simpleStatement (ts : List Token) :
    Accounted .statement ts (simpleStatement ts) := by
  cases ts with
  | nil => exact accounted_evaluation rfl
  | cons a ts =>
    unfold simpleStatement
    simp only
    split
    · next hkind => exact .comment hkind
    split
    · next hkind =>
      exact accounted_widen.mpr (accounted_expressionStatement (.goto hkind) (.goto hkind))
    rcases ts with _ | ⟨b, _ | ⟨c, ts⟩⟩
    · exact accounted_evaluation rfl
    · exact accounted_evaluation rfl
    · simp only
      cases hspelled : assignment? a b c with
      | none => exact accounted_evaluation hspelled
      | some spelled =>
        obtain ⟨op, more⟩ := spelled
        cases hname : identifierOf a with
        | error e =>
          exact .assignmentName hspelled hname
        | ok id =>
          exact accounted_widen.mpr (accounted_expressionStatement
            (.assignment hspelled hname) (.assignment hspelled hname))

mutual
theorem accounted_statement (ts : List Token) :
    Accounted .statement ts (statement ts).value := by
  match ts with
  | [] =>
    unfold statement
    exact accounted_simpleStatement []
  | t :: ts =>
    unfold statement
    split
    · next hkind =>
      match htest : expression ts with
      | .failed f rest _ =>
        simp only
        exact .test hkind (stuck_of_expression htest)
      | .found condition [] _ =>
        exact .missingThen hkind (derives_of_expression htest) (by simp)
      | .found condition (u :: rest) hshorter =>
        have hderives := derives_of_expression htest
        simp only
        split
        · next hthen =>
          have hbranches := accounted_branches condition [] none rest
          simp only [accounted_widen]
          exact hbranches.imp
            (.conditional hkind hderives hthen) (.conditional hkind hderives hthen)
        · next hthen => exact .missingThen hkind hderives (by simpa using hthen)
    · exact accounted_simpleStatement (t :: ts)
termination_by 2 * ts.length
decreasing_by simp only [List.length_cons] at hshorter ⊢; omega

theorem accounted_branches (condition : Node) (body : List Node)
    (otherwise : Option (List Node)) (ts : List Token) :
    Accounted (.branches condition body otherwise) ts
      (branches condition body otherwise ts).value := by
  match ts with
  | [] =>
    unfold branches
    exact .missingEnd (.inl rfl)
  | t :: ts =>
    unfold branches
    simp only
    split
    · next hkind => exact .missingEnd (.inr (congrArg some hkind))
    split
    · next hkind =>
      match otherwise with
      | some statements => exact .repeatedElse hkind
      | none =>
        have hnext := accounted_branches condition body (some []) ts
        simp only [Traced.map, accounted_widen]
        exact hnext.imp (.turn hkind) (.turn hkind)
    split
    · next hkind => exact .close hkind
    have hfirst := accounted_statement (t :: ts)
    match (statement (t :: ts)).value, hfirst with
    | .failed f rest _, hfirst => exact .first hfirst
    | .found s rest hfewer, hfirst =>
      have hshorter : rest.length < ts.length + 1 := hfewer
      match otherwise with
      | none =>
        have hnext := accounted_branches condition (body ++ [s]) none rest
        simp only [accounted_widen]
        exact hnext.imp (.bodyStep hfirst) (.bodyStep hfirst)
      | some statements =>
        have hnext := accounted_branches condition body (some (statements ++ [s])) rest
        simp only [accounted_widen]
        exact hnext.imp (.otherwiseStep hfirst) (.otherwiseStep hfirst)
termination_by 2 * ts.length + 1
decreasing_by all_goals simp only [List.length_cons]; omega
end

/-! ## What can be composed is found -/

/-- What the parser makes of the tokens in a phase: the result and what is left. -/
def Phase.outcome : Phase → List Token → Except (Failure StatementFault) Node × List Token
  | .statement, ts => (Parse.statement ts).value.result
  | .branches condition body otherwise, ts =>
    (Parse.branches condition body otherwise ts).value.result

/-- A statement that was found is composed of the tokens in front of the rest. -/
theorem composes_of_statement {ts rest : List Token} {s : Node} {fewer : rest.length < ts.length}
    (h : (statement ts).value = .found s rest fewer) : Composes .statement ts s rest := by
  have haccounted := accounted_statement ts
  rwa [h] at haccounted

theorem breaks_of_statement {ts rest : List Token} {f : Failure StatementFault}
    {within : rest.length ≤ ts.length} (h : (statement ts).value = .failed f rest within) :
    Breaks .statement ts f rest := by
  have haccounted := accounted_statement ts
  rwa [h] at haccounted

theorem result_widen {φ α : Type} {m n : Nat} {h : m ≤ n} (step : Step φ α m) :
    (step.widen h).result = step.result := by
  cases step <;> rfl

theorem simpleStatement_evaluation {ts : List Token} (hplain : assignmentAt? ts = none)
    (hopens : opensOperand ts) : simpleStatement ts = expressionStatement .evaluation ts := by
  cases ts with
  | nil => rfl
  | cons a ts =>
    obtain ⟨kind, hkind, hkindOpens⟩ := kindAt_of_opensOperand hopens
    obtain rfl : a.kind = kind := Option.some.inj hkind
    have hcomment : a.kind ≠ .comment := fun h => by simp [h, isOpening] at hkindOpens
    have hgoto : a.kind ≠ .gotoWord := fun h => by simp [h, isOpening] at hkindOpens
    unfold simpleStatement
    simp only [hcomment, hgoto, if_false]
    rcases ts with _ | ⟨b, _ | ⟨c, ts⟩⟩
    · rfl
    · rfl
    · have hplain : assignment? a b c = none := hplain
      simp only [hplain]

theorem Composes.opens {ts rest : List Token} {s : Node} (h : Composes .statement ts s rest) :
    ∃ kind, kindAt ts = some kind ∧
      (kind = .comment ∨ kind = .gotoWord ∨ kind = .ifWord ∨ isOpening kind = true) := by
  cases h with
  | comment hkind => exact ⟨_, rfl, .inl hkind⟩
  | goto hkind => exact ⟨_, rfl, .inr (.inl hkind)⟩
  | assignment hspelled =>
    obtain ⟨a, _, _, _, h, hkind, _⟩ := assignmentAt?_eq_some hspelled
    cases h
    exact ⟨_, rfl, .inr (.inr (.inr (by simp [hkind, isOpening])))⟩
  | evaluation _ hvalue =>
    obtain ⟨kind, hkind, hkindOpens⟩ := kindAt_of_opensOperand hvalue.opens
    exact ⟨kind, hkind, .inr (.inr (.inr hkindOpens))⟩
  | conditional hkind => exact ⟨_, rfl, .inr (.inr (.inl hkind))⟩

/-- A statement within a conditional goes to the branch that is being read. -/
theorem outcome_branches {condition : Node} {body : List Node} {otherwise : Option (List Node)}
    {ts mid : List Token} {s : Node} (hcomposes : Composes .statement ts s mid)
    (hfirst : Phase.statement.outcome ts = (.ok s, mid)) :
    (Phase.branches condition body otherwise).outcome ts =
      match otherwise with
      | none => (Phase.branches condition (body ++ [s]) none).outcome mid
      | some ss => (Phase.branches condition body (some (ss ++ [s]))).outcome mid := by
  obtain ⟨_, hfirst⟩ := Step.eq_found hfirst
  obtain ⟨kind, hkind, hopens⟩ := hcomposes.opens
  match ts, hkind with
  | t :: ts, hkind =>
    obtain rfl : t.kind = kind := Option.some.inj hkind
    have hnewline : t.kind ≠ .newline := fun h => by simp [h, isOpening] at hopens
    have helse : t.kind ≠ .elseWord := fun h => by simp [h, isOpening] at hopens
    have hend : t.kind ≠ .endWord := fun h => by simp [h, isOpening] at hopens
    rw [Phase.outcome, branches.eq_def]
    cases otherwise with
    | none => simp [hnewline, helse, hend, hfirst, Phase.outcome, result_widen]
    | some _ => simp [hnewline, helse, hend, hfirst, Phase.outcome, result_widen]

/-- What a phase composes, the parser finds in it. -/
theorem Composes.outcome {phase : Phase} {ts rest : List Token} {s : Node}
    (h : Composes phase ts s rest) : phase.outcome ts = (.ok s, rest) := by
  induction h with
  | comment hkind =>
    simp [Phase.outcome, statement, simpleStatement, hkind, Step.ofToken, Step.result]
  | goto hkind htarget =>
    obtain ⟨_, htarget⟩ := htarget.expression
    simp [Phase.outcome, statement, simpleStatement, hkind, expressionStatement, htarget,
      Step.behind, Step.widen, Step.result]
  | @assignment a _ op more id e rest hspelled hname hvalue =>
    obtain ⟨_, b, c, us, h, hkind, _⟩ := assignmentAt?_eq_some hspelled
    cases h
    obtain ⟨_, hvalue⟩ := hvalue.expression
    have hspelled : assignment? a b c = some (op, more) := hspelled
    simp [Phase.outcome, statement, simpleStatement, hkind, hspelled, hname,
      expressionStatement, hvalue, Step.widen, Step.result]
  | @evaluation ts e rest hplain hvalue =>
    have hsimple := simpleStatement_evaluation hplain hvalue.opens
    obtain ⟨kind, hkind, hopening⟩ := kindAt_of_opensOperand hvalue.opens
    obtain ⟨_, hvalue⟩ := hvalue.expression
    cases ts with
    | nil => cases hkind
    | cons t ts =>
      obtain rfl : t.kind = kind := Option.some.inj hkind
      have hif : t.kind ≠ .ifWord := fun h => by simp [h, isOpening] at hopening
      simp [Phase.outcome, statement, hif, hsimple, expressionStatement, hvalue, Step.result]
  | conditional hkind htest hthen _ ih =>
    obtain ⟨_, htest⟩ := htest.expression
    obtain ⟨_, hbranches⟩ := Step.eq_found ih
    simp [Phase.outcome, statement, hkind, htest, hthen, hbranches, Step.widen, Step.result]
  | close hkind =>
    rw [Phase.outcome, branches.eq_def]
    simp [hkind, Step.result]
  | turn hkind _ ih =>
    obtain ⟨_, hnext⟩ := Step.eq_found ih
    rw [Phase.outcome, branches.eq_def]
    simp [hkind, Traced.map, hnext, Step.widen, Step.result]
  | bodyStep hfirst _ ihfirst ihnext => exact (outcome_branches hfirst ihfirst).trans ihnext
  | otherwiseStep hfirst _ ihfirst ihnext =>
    exact (outcome_branches hfirst ihfirst).trans ihnext

end Yolol.Parse

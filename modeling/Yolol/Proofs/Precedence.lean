-- SUMMARY: Levels of operators, and the trees in which every operand binds tightly enough.
import Yolol.Proofs.StatementDerivation

/-!
# Precedence

Every expression has a level, the higher the tighter its outermost operator binds. A
tree is stratified if all operands in it have the levels that their operators ask for.
The parser builds only such trees, and only such trees are kept in its faults.
-/

namespace Yolol

/-! ## Levels -/

/-- The level of a binary operator; zero for any other. -/
def Operator.binaryLevel : Operator → Nat
  | .and => 1
  | .or => 2
  | .equal | .notEqual => 3
  | .less | .lessEqual | .greater | .greaterEqual => 4
  | .add | .sub => 5
  | .mul | .div | .mod => 6
  | .pow => 7
  | _ => 0

/-- The level of a unary operator; zero for any other. -/
def Operator.unaryLevel : Operator → Nat
  | .factorial => 8
  | .not | .negate | .abs | .sqrt | .sin | .cos | .tan | .arcsin | .arccos | .arctan => 9
  | .preIncrement | .preDecrement | .postIncrement | .postDecrement => 10
  | _ => 0

/-- An operator that an assignment can have. -/
def Operator.isAssignment : Operator → Bool
  | .assign | .addAssign | .subAssign | .mulAssign | .divAssign | .modAssign => true
  | _ => false

namespace Node

/-- The level of an expression; zero for any other node. -/
def level : Node → Nat
  | .value _ => 10
  | .unary op _ => op.unaryLevel
  | .binary op _ _ => op.binaryLevel
  | _ => 0

/-- A node that can stand in a value expression. -/
def isValue : Node → Bool
  | .number _ | .text _ | .identifier _ | .group _ | .misfit .text _ => true
  | _ => false

/-- A variable as an expression. -/
def isVariable : Node → Bool
  | .value (.identifier _) => true
  | _ => false

def isIdentifier : Node → Bool
  | .identifier _ => true
  | _ => false

def isStatement : Node → Bool
  | .comment _ | .misfit .comment _ | .goto _ | .ifThen .. | .ifElse .. | .assignment ..
  | .evaluation _ => true
  | _ => false

def isLine : Node → Bool
  | .line _ => true
  | _ => false

/-! ## Every node of a tree -/

mutual
/-- Every node of the tree satisfies `p`. -/
def every (p : Node → Bool) : Node → Bool
  | .missing => p .missing
  | .misfit role content => p (.misfit role content)
  | .number n => p (.number n)
  | .text s => p (.text s)
  | .identifier id => p (.identifier id)
  | .group a => p (.group a) && every p a
  | .value a => p (.value a) && every p a
  | .unary op a => p (.unary op a) && every p a
  | .binary op a b => p (.binary op a b) && (every p a && every p b)
  | .comment s => p (.comment s)
  | .goto a => p (.goto a) && every p a
  | .ifThen c body => p (.ifThen c body) && (every p c && everyAll p body)
  | .ifElse c body otherwise =>
    p (.ifElse c body otherwise) && (every p c && (everyAll p body && everyAll p otherwise))
  | .assignment target op a => p (.assignment target op a) && (every p target && every p a)
  | .evaluation a => p (.evaluation a) && every p a
  | .line as => p (.line as) && everyAll p as
  | .program as => p (.program as) && everyAll p as

/-- Every node of the trees satisfies `p`. -/
def everyAll (p : Node → Bool) : List Node → Bool
  | [] => true
  | a :: as => every p a && everyAll p as
end

@[simp] theorem everyAll_iff {p : Node → Bool} {as : List Node} :
    everyAll p as = true ↔ ∀ a ∈ as, a.every p = true := by
  induction as with
  | nil => simp [everyAll]
  | cons a as ih => simp [everyAll, ih]

/-! ## Stratified trees -/

/-- The operands of the node have the levels that its operator asks for, and its other
    children are of the right kind. -/
def isLayered : Node → Bool
  | .missing => false
  | .value a => a.isValue
  | .group a | .goto a | .evaluation a => 1 ≤ a.level
  | .unary .factorial a => 8 ≤ a.level
  | .unary op a =>
    if op.isStep then a.isVariable else op.unaryLevel = 9 && 9 ≤ a.level
  | .binary .pow a b => 7 < a.level && 7 ≤ b.level
  | .binary op a b =>
    1 ≤ op.binaryLevel && (op.binaryLevel ≤ a.level && op.binaryLevel < b.level)
  | .ifThen c body => 1 ≤ c.level && body.all isStatement
  | .ifElse c body otherwise =>
    1 ≤ c.level && (body.all isStatement && otherwise.all isStatement)
  | .assignment target op a => target.isIdentifier && (op.isAssignment && 1 ≤ a.level)
  | .line as => as.all isStatement
  | .program as => as.all isLine
  | .number _ | .text _ | .identifier _ | .comment _ | .misfit .. => true

/-- Every operator of the tree has operands of the levels that it asks for. -/
def Stratified (n : Node) : Prop := n.every isLayered = true

instance : DecidablePred Stratified := fun n =>
  inferInstanceAs (Decidable (n.every isLayered = true))

end Node

namespace Parse

/-! ## Expressions -/

def Tier.level : Tier → Nat
  | .conjunction => 1
  | .disjunction => 2
  | .equality => 3
  | .order => 4
  | .sum => 5
  | .product => 6

theorem operator?_level {tier : Tier} {first : Token.Kind} {second : Option Token.Kind}
    {op : Operator} {more : Nat} (h : tier.operator? first second = some (op, more)) :
    op.binaryLevel = tier.level := by
  simp only [Tier.operator?] at h
  split at h
  case h_3 | h_4 | h_5 | h_6 => split at h <;> cases h <;> rfl
  case h_12 => cases h
  all_goals
    cases h
    rfl

theorem Tier.level_of_tighter {tier inner : Tier} (h : tier.tighter? = some inner) :
    inner.level = tier.level + 1 := by
  cases tier <;> cases h <;> rfl

theorem Tier.level_of_tightest {tier : Tier} (h : tier.tighter? = none) : tier.level = 6 := by
  cases tier <;> cases h
  rfl

/-- The least level of what a rule finds. -/
def Rule.level : Rule → Nat
  | .chain tier | .extend tier _ => tier.level
  | .operand tier => tier.level + 1
  | .power => 7
  | .repeated | .factorials _ => 8
  | .unary => 9
  | .atom => 10
  | .single => 0

/-- A tree that the rule may find. -/
def Rule.Admits : Rule → Node → Prop
  | .single, e => e.Stratified ∧ e.isValue = true
  | rule, e => e.Stratified ∧ rule.level ≤ e.level

/-- What a rule starts from is stratified and of its level. -/
def Rule.Founded : Rule → Prop
  | .extend tier left => left.Stratified ∧ tier.level ≤ left.level
  | .factorials first => first.Stratified ∧ 8 ≤ first.level
  | _ => True

theorem Tier.level_bounds (tier : Tier) : 1 ≤ tier.level ∧ tier.level ≤ 6 := by
  cases tier <;> decide

theorem stratified_unary {op : Operator} {operand : Node}
    (hlayered : (Node.unary op operand).isLayered = true) (hoperand : operand.Stratified) :
    (Node.unary op operand).Stratified := by
  simp only [Node.Stratified, Node.every, Bool.and_eq_true]
  exact ⟨hlayered, hoperand⟩

theorem stratified_binary {op : Operator} {left right : Node}
    (hlayered : (Node.binary op left right).isLayered = true) (hleft : left.Stratified)
    (hright : right.Stratified) : (Node.binary op left right).Stratified := by
  simp only [Node.Stratified, Node.every, Bool.and_eq_true]
  exact ⟨hlayered, hleft, hright⟩

/-- An operation of a level that associates to the left. -/
theorem admits_operation {tier : Tier} {op : Operator} {left right : Node}
    (hop : op.binaryLevel = tier.level) (hleft : left.Stratified ∧ tier.level ≤ left.level)
    (hright : (Rule.operand tier).Admits right) :
    (Node.binary op left right).Stratified ∧ tier.level ≤ (Node.binary op left right).level := by
  have hbounds := tier.level_bounds
  have hr : tier.level < right.level := hright.2
  have hpow : op ≠ .pow := by
    rintro rfl
    simp only [Operator.binaryLevel] at hop
    omega
  refine ⟨stratified_binary ?_ hleft.1 hright.1, Nat.le_of_eq hop.symm⟩
  simp [Node.isLayered, hop, hbounds.1, hleft.2, hr]

theorem leadingOperator?_level {kind : Token.Kind} {op : Operator}
    (h : leadingOperator? kind = some op) : op.unaryLevel = 9 ∧ op.isStep = false := by
  cases kind <;> cases h <;> exact ⟨rfl, rfl⟩

theorem step?_level {a b c t : Token} {op : Operator} (h : step? a b c = some (op, t)) :
    op.unaryLevel = 10 ∧ op.isStep = true := by
  simp only [step?] at h
  split at h <;> cases h <;> exact ⟨rfl, rfl⟩

theorem textOf_text (t : Token) :
    (textOf .text .text t).Stratified ∧ (textOf .text .text t).isValue = true := by
  unfold textOf
  split
  · exact ⟨rfl, rfl⟩
  · split <;> exact ⟨rfl, rfl⟩
  · exact ⟨rfl, rfl⟩

/-- What a rule finds is stratified and of its level, if what it starts from is. -/
theorem Derives.stratified {rule : Rule} {ts rest : List Token} {e : Node}
    (h : Derives rule ts e rest) (hfounded : rule.Founded) : rule.Admits e := by
  induction h with
  | @chain tier _ _ _ _ _ _ _ ihfirst ihmore =>
    obtain ⟨hleft, hlevel⟩ := ihfirst trivial
    exact ihmore ⟨hleft, Nat.le_of_succ_le hlevel⟩
  | operandChain hbelow _ ih =>
    obtain ⟨hstratified, hlevel⟩ := ih trivial
    exact ⟨hstratified, by simpa [Rule.level, Tier.level_of_tighter hbelow] using hlevel⟩
  | operandPower hbelow _ ih =>
    obtain ⟨hstratified, hlevel⟩ := ih trivial
    exact ⟨hstratified, by simpa [Rule.level, Tier.level_of_tightest hbelow] using hlevel⟩
  | extendStop => exact hfounded
  | extendStep hoperator _ _ ihoperand ihnext =>
    exact ihnext (admits_operation (operator?_level hoperator) hfounded (ihoperand trivial))
  | powerStop _ _ ih =>
    obtain ⟨hstratified, hlevel⟩ := ih trivial
    exact ⟨hstratified, Nat.le_of_succ_le hlevel⟩
  | powerStep _ _ _ ihfirst ihnext =>
    obtain ⟨hbase, hbaseLevel⟩ := ihfirst trivial
    obtain ⟨hexponent, hexponentLevel⟩ := ihnext trivial
    have hbaseLevel : 7 < _ := hbaseLevel
    have hexponentLevel : 7 ≤ _ := hexponentLevel
    refine ⟨stratified_binary ?_ hbase hexponent, Nat.le_refl 7⟩
    simp [Node.isLayered, hbaseLevel, hexponentLevel]
  | repeated _ _ ihfirst ihmore =>
    obtain ⟨hfirst, hlevel⟩ := ihfirst trivial
    exact ihmore ⟨hfirst, Nat.le_of_succ_le hlevel⟩
  | factorialsStop => exact hfounded
  | factorialsStep _ _ ih =>
    obtain ⟨hoperand, hlevel⟩ := hfounded
    refine ih ⟨stratified_unary ?_ hoperand, Nat.le_refl 8⟩
    simpa [Node.isLayered] using hlevel
  | unaryAtom _ ih =>
    obtain ⟨hstratified, hlevel⟩ := ih trivial
    exact ⟨hstratified, Nat.le_of_succ_le hlevel⟩
  | @unaryLeading _ _ op _ _ hoperator _ _ ih =>
    obtain ⟨hoperand, hlevel⟩ := ih trivial
    obtain ⟨hop, hstep⟩ := leadingOperator?_level hoperator
    have hlevel : 9 ≤ _ := hlevel
    have hfactorial : op ≠ .factorial := by
      rintro rfl
      cases hop
    refine ⟨stratified_unary ?_ hoperand, Nat.le_of_eq hop.symm⟩
    simp [Node.isLayered, hstep, hop, hlevel]
  | @atomStep _ _ _ _ _ op _ hstep =>
    obtain ⟨hop, hstep⟩ := step?_level hstep
    have hfactorial : op ≠ .factorial := by
      rintro rfl
      cases hop
    refine ⟨stratified_unary ?_ rfl, Nat.le_of_eq hop.symm⟩
    simp [Node.isLayered, hstep, Node.isVariable]
  | atomSingle _ _ ih =>
    obtain ⟨hstratified, hvalue⟩ := ih trivial
    refine ⟨?_, Nat.le_refl 10⟩
    simp only [Node.Stratified, Node.every, Bool.and_eq_true]
    exact ⟨hvalue, hstratified⟩
  | @string t => exact textOf_text t
  | number => exact ⟨rfl, rfl⟩
  | identifier => exact ⟨rfl, rfl⟩
  | group _ _ _ ih =>
    obtain ⟨hstratified, hlevel⟩ := ih trivial
    refine ⟨?_, rfl⟩
    simp only [Node.Stratified, Node.every, Bool.and_eq_true]
    exact ⟨by simpa [Node.isLayered] using (show 1 ≤ _ from hlevel), hstratified⟩

/-! ## Faults of expressions -/

/-- What had been read when the fault and each of its causes came about. -/
def ExpressionFault.fragments (f : ExpressionFault) : List Node :=
  (f :: f.causes).filterMap ExpressionFault.fragment

/-- What had been read when the fault and each of its causes came about. -/
def StatementFault.fragments (f : StatementFault) : List Node :=
  f.fragment.toList ++ f.causes.filterMap ExpressionFault.fragment

/-- The trees that an outcome holds: what was found, or what had been read by then. -/
def trees {φ : Type} (fragments : φ → List Node) : Except (Failure φ) Node → List Node
  | .ok node => [node]
  | .error (.fault f) => fragments f
  | .error (.token _) => []

/-- An expression that is stratified. -/
def Grounded (n : Node) : Prop := n.Stratified ∧ 1 ≤ n.level

theorem Derives.grounded {ts rest : List Token} {e : Node}
    (h : Derives (.chain .conjunction) ts e rest) : Grounded e := h.stratified trivial

theorem ExpressionFault.forall_fragments_badOperand {op : Operator} {left : Node}
    {inner : ExpressionFault} (hleft : Grounded left) (hinner : ∀ n ∈ inner.fragments, Grounded n) :
    ∀ n ∈ (ExpressionFault.badOperand op left inner).fragments, Grounded n := by
  intro n hn
  rcases List.mem_cons.mp hn with rfl | hn
  · exact hleft
  · exact hinner n hn

/-- What a rule has read by the time it fails is stratified, if what it starts from is. -/
theorem Fails.grounded {rule : Rule} {ts rest : List Token} {f : Failure ExpressionFault}
    (h : Fails rule ts f rest) (hfounded : rule.Founded) :
    ∀ n ∈ trees ExpressionFault.fragments (.error f), Grounded n := by
  have hnone : ∀ n ∈ ([] : List Node), Grounded n := fun n hn => by cases hn
  have hone {e : Node} (he : Grounded e) : ∀ n ∈ [e], Grounded n :=
    fun n hn => List.mem_singleton.mp hn ▸ he
  have hextend {tier : Tier} {left : Node} (hf : (Rule.extend tier left).Founded) :
      Grounded left := ⟨hf.1, Nat.le_trans tier.level_bounds.1 hf.2⟩
  induction h with
  | chainFirst _ ih => exact ih trivial
  | chainMore hfirst _ ih =>
    obtain ⟨hleft, hlevel⟩ := hfirst.stratified trivial
    exact ih ⟨hleft, Nat.le_of_succ_le hlevel⟩
  | operandChain _ _ ih => exact ih trivial
  | operandPower _ _ ih => exact ih trivial
  | extendAbsent => exact hone (hextend hfounded)
  | extendFault _ _ ih =>
    exact ExpressionFault.forall_fragments_badOperand (hextend hfounded) (ih trivial)
  | extendToken => exact hnone
  | extendStep hoperator hoperand _ ih =>
    exact ih (admits_operation (operator?_level hoperator) hfounded (hoperand.stratified trivial))
  | powerFirst _ ih => exact ih trivial
  | powerAbsent hfirst =>
    obtain ⟨hbase, hlevel⟩ := hfirst.stratified trivial
    exact hone ⟨hbase, Nat.le_trans (by decide) hlevel⟩
  | powerStep _ _ _ ih => exact ih trivial
  | repeated _ ih => exact ih trivial
  | unaryAtom _ ih => exact ih trivial
  | unaryAbsent => exact hnone
  | unaryLeading _ _ _ ih => exact ih trivial
  | atomStep => exact hnone
  | atomSingle _ _ ih => exact ih trivial
  | number => exact hnone
  | identifier => exact hnone
  | groupAbsent => exact hnone
  | groupContent _ _ ih => exact ih trivial
  | groupUnclosed _ hcontent => exact hone hcontent.grounded

theorem Stuck.grounded {ts rest : List Token} {f : Failure ExpressionFault}
    (h : Stuck ts f rest) : ∀ n ∈ trees ExpressionFault.fragments (.error f), Grounded n := by
  cases h with
  | within hfails => exact hfails.grounded trivial
  | before =>
    intro n hn
    cases hn

/-! ## Statements -/

/-- A statement that is stratified. -/
def Framed (n : Node) : Prop := n.Stratified ∧ n.isStatement = true

/-- What a phase has read before it starts is stratified. -/
def Phase.Founded : Phase → Prop
  | .statement => True
  | .branches condition body otherwise =>
    Grounded condition ∧ (∀ s ∈ body, Framed s) ∧ ∀ s ∈ otherwise.getD [], Framed s

theorem framed_textOf (t : Token) : Framed (textOf .comment .comment t) := by
  unfold textOf
  split
  · exact ⟨rfl, rfl⟩
  · split <;> exact ⟨rfl, rfl⟩
  · exact ⟨rfl, rfl⟩

theorem framed_goto {e : Node} (he : Grounded e) : Framed (.goto e) := by
  refine ⟨?_, rfl⟩
  simp only [Node.Stratified, Node.every, Bool.and_eq_true]
  exact ⟨by simpa [Node.isLayered] using he.2, he.1⟩

theorem framed_evaluation {e : Node} (he : Grounded e) : Framed (.evaluation e) := by
  refine ⟨?_, rfl⟩
  simp only [Node.Stratified, Node.every, Bool.and_eq_true]
  exact ⟨by simpa [Node.isLayered] using he.2, he.1⟩

theorem framed_assignment {id : Identifier} {op : Operator} {e : Node}
    (hop : op.isAssignment = true) (he : Grounded e) :
    Framed (.assignment (.identifier id) op e) := by
  refine ⟨?_, rfl⟩
  simp only [Node.Stratified, Node.every, Bool.and_eq_true]
  exact ⟨by simpa [Node.isLayered, Node.isIdentifier, hop] using he.2, rfl, he.1⟩

theorem framed_ifThen {condition : Node} {body : List Node} (hcondition : Grounded condition)
    (hbody : ∀ s ∈ body, Framed s) : Framed (.ifThen condition body) := by
  refine ⟨?_, rfl⟩
  simp only [Node.Stratified, Node.every, Bool.and_eq_true, Node.everyAll_iff]
  refine ⟨?_, hcondition.1, fun s hs => (hbody s hs).1⟩
  simpa [Node.isLayered] using And.intro hcondition.2 fun s hs => (hbody s hs).2

theorem framed_ifElse {condition : Node} {body otherwise : List Node}
    (hcondition : Grounded condition) (hbody : ∀ s ∈ body, Framed s)
    (hotherwise : ∀ s ∈ otherwise, Framed s) : Framed (.ifElse condition body otherwise) := by
  refine ⟨?_, rfl⟩
  simp only [Node.Stratified, Node.every, Bool.and_eq_true, Node.everyAll_iff]
  refine ⟨?_, hcondition.1, fun s hs => (hbody s hs).1, fun s hs => (hotherwise s hs).1⟩
  simpa [Node.isLayered] using
    And.intro hcondition.2 ⟨fun s hs => (hbody s hs).2, fun s hs => (hotherwise s hs).2⟩

theorem Phase.Founded.conditional {condition : Node} {body : List Node}
    {otherwise : Option (List Node)} (h : (Phase.branches condition body otherwise).Founded) :
    Framed (.conditional condition body (otherwise.getD [])) := by
  obtain ⟨hcondition, hbody, hotherwise⟩ := h
  unfold Node.conditional
  split
  · exact framed_ifThen hcondition hbody
  · exact framed_ifElse hcondition hbody hotherwise

theorem assignmentAt?_isAssignment {ts : List Token} {op : Operator} {more : Nat}
    (h : assignmentAt? ts = some (op, more)) : op.isAssignment = true := by
  obtain ⟨_, b, _, _, _, _, hform⟩ := assignmentAt?_eq_some h
  rcases hform with ⟨-, -, rfl, -⟩ | ⟨-, hcompound, -⟩
  · rfl
  · cases hkind : b.kind <;> rw [hkind] at hcompound <;> cases hcompound <;> rfl

theorem forall_mem_concat {P : Node → Prop} {as : List Node} {a : Node} (has : ∀ b ∈ as, P b)
    (ha : P a) : ∀ b ∈ as ++ [a], P b :=
  List.forall_mem_append.mpr ⟨has, List.forall_mem_singleton.mpr ha⟩

/-- What a phase composes is a stratified statement, if what it starts from is. -/
theorem Composes.framed {phase : Phase} {ts rest : List Token} {s : Node}
    (h : Composes phase ts s rest) (hfounded : phase.Founded) : Framed s := by
  induction h with
  | @comment t => exact framed_textOf t
  | goto _ htarget => exact framed_goto htarget.grounded
  | assignment hspelled _ hvalue =>
    exact framed_assignment (assignmentAt?_isAssignment hspelled) hvalue.grounded
  | evaluation _ hvalue => exact framed_evaluation hvalue.grounded
  | conditional _ htest _ _ ih => exact ih ⟨htest.grounded, by simp, by simp⟩
  | close => exact hfounded.conditional
  | turn _ _ ih =>
    obtain ⟨hcondition, hbody, -⟩ := hfounded
    exact ih ⟨hcondition, hbody, by simp⟩
  | bodyStep _ _ ihfirst ihnext =>
    obtain ⟨hcondition, hbody, -⟩ := hfounded
    exact ihnext ⟨hcondition, forall_mem_concat hbody (ihfirst trivial), by simp⟩
  | otherwiseStep _ _ ihfirst ihnext =>
    obtain ⟨hcondition, hbody, hotherwise⟩ := hfounded
    exact ihnext ⟨hcondition, hbody, forall_mem_concat hotherwise (ihfirst trivial)⟩

/-- What an expression has read by the time it fails is kept by its statement. -/
theorem Stuck.stratified {ts rest : List Token} {f : Failure ExpressionFault}
    (h : Stuck ts f rest) :
    ∀ n ∈ trees StatementFault.fragments (.error f.ofExpression), n.Stratified := by
  have hgrounded := h.grounded
  cases f with
  | token => simp [Failure.ofExpression, trees]
  | fault f =>
    intro n hn
    have hfragment : ∀ e, f.fragment = some e → Grounded e := fun e he =>
      hgrounded e (by simp [trees, ExpressionFault.fragments, he])
    rcases List.mem_append.mp hn with hn | hn
    · obtain ⟨e, he, rfl⟩ : ∃ e, f.fragment = some e ∧ Node.evaluation e = n := by
        simpa [StatementFault.fragment] using hn
      exact (framed_evaluation (hfragment e he)).1
    · exact (hgrounded n hn).1

/-- What a phase has read by the time it breaks off is stratified. -/
theorem Breaks.stratified {phase : Phase} {ts rest : List Token} {f : Failure StatementFault}
    (h : Breaks phase ts f rest) (hfounded : phase.Founded) :
    ∀ n ∈ trees StatementFault.fragments (.error f), n.Stratified := by
  have hone {s : Node} (hs : Framed s) : ∀ n ∈ [s], n.Stratified :=
    fun n hn => List.mem_singleton.mp hn ▸ hs.1
  induction h with
  | goto _ htarget => exact htarget.stratified
  | assignmentName => simp [trees]
  | assignment _ _ hvalue => exact hvalue.stratified
  | evaluation _ hvalue => exact hvalue.stratified
  | test _ htest => exact htest.stratified
  | missingThen => simp [trees, StatementFault.fragments, StatementFault.fragment,
      StatementFault.causes]
  | conditional _ htest _ _ ih => exact ih ⟨htest.grounded, by simp, by simp⟩
  | missingEnd => exact hone hfounded.conditional
  | repeatedElse => exact hone (framed_ifElse hfounded.1 hfounded.2.1 hfounded.2.2)
  | turn _ _ ih =>
    obtain ⟨hcondition, hbody, -⟩ := hfounded
    exact ih ⟨hcondition, hbody, by simp⟩
  | first _ ih => exact ih trivial
  | bodyStep hfirst _ ih =>
    obtain ⟨hcondition, hbody, -⟩ := hfounded
    exact ih ⟨hcondition, forall_mem_concat hbody (hfirst.framed trivial), by simp⟩
  | otherwiseStep hfirst _ ih =>
    obtain ⟨hcondition, hbody, hotherwise⟩ := hfounded
    exact ih ⟨hcondition, hbody, forall_mem_concat hotherwise (hfirst.framed trivial)⟩

/-! ## Lines and programs -/

theorem stratified_line {statements : List Node} (h : ∀ s ∈ statements, Framed s) :
    (Node.line statements).Stratified := by
  simp only [Node.Stratified, Node.every, Bool.and_eq_true, Node.everyAll_iff]
  refine ⟨?_, fun s hs => (h s hs).1⟩
  simpa [Node.isLayered] using fun s hs => (h s hs).2

theorem stratified_program {lines : List Node}
    (h : ∀ l ∈ lines, l.Stratified ∧ l.isLine = true) : (Node.program lines).Stratified := by
  simp only [Node.Stratified, Node.every, Bool.and_eq_true, Node.everyAll_iff]
  refine ⟨?_, fun l hl => (h l hl).1⟩
  simpa [Node.isLayered] using fun l hl => (h l hl).2

/-- A statement that cannot be read keeps only stratified trees. -/
theorem stratified_of_failed {ts rest : List Token} {f : Failure StatementFault}
    {within : rest.length ≤ ts.length} (h : (statement ts).value = .failed f rest within) :
    ∀ n ∈ trees StatementFault.fragments (.error f), n.Stratified :=
  (breaks_of_statement h).stratified trivial

theorem framed_of_found {ts rest : List Token} {s : Node} {fewer : rest.length < ts.length}
    (h : (statement ts).value = .found s rest fewer) : Framed s :=
  (composes_of_statement h).framed trivial

theorem lineFrom_stratified {soFar : List Node} {ts : List Token} (h : ∀ s ∈ soFar, Framed s) :
    ∀ n ∈ trees StatementFault.fragments (lineFrom soFar ts).result, n.Stratified := by
  fun_induction lineFrom soFar ts with
  | case1 soFar => exact List.forall_mem_singleton.mpr (stratified_line h)
  | case2 soFar => exact List.forall_mem_singleton.mpr (stratified_line h)
  | case3 _ _ _ _ _ _ _ _ hfailed => exact stratified_of_failed hfailed
  | case4 _ _ _ _ _ _ _ _ hfound ih => exact ih (forall_mem_concat h (framed_of_found hfound))

theorem programFrom_stratified {lines soFar : List Node} {ts : List Token}
    (hlines : ∀ l ∈ lines, l.Stratified ∧ l.isLine = true) (h : ∀ s ∈ soFar, Framed s) :
    ∀ n ∈ trees StatementFault.fragments (programFrom lines soFar ts).result, n.Stratified := by
  fun_induction programFrom lines soFar ts with
  | case1 => exact List.forall_mem_singleton.mpr (stratified_program hlines)
  | case2 =>
    have hall := forall_mem_concat hlines ⟨stratified_line h, rfl⟩
    exact List.forall_mem_singleton.mpr (stratified_program hall)
  | case3 _ _ _ _ _ ih => exact ih (forall_mem_concat hlines ⟨stratified_line h, rfl⟩) (by simp)
  | case4 _ _ _ _ _ _ _ _ _ hfailed => exact stratified_of_failed hfailed
  | case5 _ _ _ _ _ _ _ _ _ hfound ih =>
    exact ih hlines (forall_mem_concat h (framed_of_found hfound))

theorem expression_stratified (ts : List Token) :
    ∀ n ∈ trees ExpressionFault.fragments (expression ts).result.1, n.Stratified := by
  cases h : expression ts with
  | found e rest fewer =>
    exact List.forall_mem_singleton.mpr (derives_of_expression h).grounded.1
  | failed f rest within => exact fun n hn => ((stuck_of_expression h).grounded n hn).1

theorem statement_stratified (ts : List Token) :
    ∀ n ∈ trees StatementFault.fragments (statement ts).value.result.1, n.Stratified := by
  cases h : (statement ts).value with
  | found s rest fewer => exact List.forall_mem_singleton.mpr (framed_of_found h).1
  | failed f rest within => exact stratified_of_failed h

/-- Whatever the tokens are, every tree that the parser returns is stratified, and so is
    every tree that its faults and their causes keep. -/
theorem trees_stratified (ts : List Token) :
    (∀ n ∈ trees ExpressionFault.fragments (expression ts).result.1, n.Stratified) ∧
      (∀ n ∈ trees StatementFault.fragments (statement ts).value.result.1, n.Stratified) ∧
      (∀ n ∈ trees StatementFault.fragments (line ts).result, n.Stratified) ∧
      ∀ n ∈ trees StatementFault.fragments (program ts).result, n.Stratified := by
  refine ⟨expression_stratified ts, statement_stratified ts, ?_, ?_⟩
  · exact lineFrom_stratified (by simp)
  · exact programFrom_stratified (by simp) (by simp)

end Parse

end Yolol

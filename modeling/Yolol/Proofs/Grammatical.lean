-- SUMMARY: The trees that read back from their own symbols, and what may stand behind them.
import Yolol.Proofs.Precedence
import Yolol.Proofs.Symbol

/-!
# Grammatical trees

Operators are made of single-character tokens, and the parser looks at most three tokens
ahead. So a stratified tree can still be written with symbols that mean another tree:
`- -x` decrements, `a - -b` decrements `a`, and `a! == b` compares with `!=`. Next to
each other, `a` and `-b` become a difference. A grammatical tree has none of these clashes.
-/

namespace Yolol

namespace Node

/-! ## Clashes -/

/-- The kind of the first symbol. -/
def firstKind (n : Node) : Option Token.Kind := n.symbols.head?.map Symbol.kind

/-- The kind of the last symbol. -/
def lastKind (n : Node) : Option Token.Kind := n.symbols.getLast?.map Symbol.kind

/-- The last symbol is a variable that a step could still follow. -/
def endsInName : Node → Bool
  | .value (.identifier _) => true
  | .unary op a => !op.isTrailing && !op.isStep && a.endsInName
  | .binary _ _ b => b.endsInName
  | _ => false

/-- A statement that an operator could still extend. -/
def isOpenEnded : Node → Bool
  | .goto _ | .assignment .. | .evaluation _ => true
  | _ => false

/-- A sign in front could be the operator of a statement before. -/
def startsWithSign (n : Node) : Bool :=
  n.firstKind == some .plus || n.firstKind == some .minus

/-- No statement is extended by the sign of the next. -/
def separated : List Node → Bool
  | a :: b :: as => !(a.isOpenEnded && b.startsWithSign) && separated (b :: as)
  | _ => true

/-- The symbols of the children of the node do not run into each other. -/
def isClashFree : Node → Bool
  | .unary .negate (.unary .negate a) => a.firstKind != some .identifier
  | .binary .add a b => !(a.endsInName && b.firstKind == some .plus)
  | .binary .sub a b => !(a.endsInName && b.firstKind == some .minus)
  | .binary .equal a _ => a.lastKind != some .exclam
  | .ifThen _ body => separated body
  | .ifElse _ body otherwise => !otherwise.isEmpty && (separated body && separated otherwise)
  | .line as => separated as
  | _ => true

/-- A leaf that a token can stand for. -/
def isLegible : Node → Bool
  | .missing | .misfit .. => false
  | .number n => 0 ≤ n.raw
  | .identifier id => !id.name.toList.contains ':'
  | _ => true

/-- A tree that follows the grammar and reads as no other. -/
structure Grammatical (n : Node) : Prop where
  stratified : n.Stratified
  legible : n.every isLegible = true
  clashFree : n.every isClashFree = true

instance : DecidablePred Grammatical := fun n =>
  decidable_of_iff (n.Stratified ∧ n.every isLegible = true ∧ n.every isClashFree = true)
    ⟨fun ⟨h, h', h''⟩ => ⟨h, h', h''⟩, fun h => ⟨h.stratified, h.legible, h.clashFree⟩⟩

theorem every_self {p : Node → Bool} {n : Node} (h : n.every p = true) : p n = true := by
  cases n <;> simp only [every, Bool.and_eq_true] at h <;> first | exact h | exact h.1

namespace Grammatical

variable {op : Operator} {a b : Node}

theorem layered (h : Grammatical a) : a.isLayered = true := every_self h.stratified

theorem apart (h : Grammatical a) : a.isClashFree = true := every_self h.clashFree

/-- The three parts of being grammatical, of a node and of what is below it. -/
theorem of_every {n : Node} (h : ∀ p, n.every p = true → a.every p = true) (hn : Grammatical n) :
    Grammatical a :=
  ⟨h _ hn.stratified, h _ hn.legible, h _ hn.clashFree⟩

theorem value (h : Grammatical (.value a)) : Grammatical a :=
  h.of_every fun p hp => by simp_all [every]

theorem group (h : Grammatical (.group a)) : Grammatical a :=
  h.of_every fun p hp => by simp_all [every]

theorem unary (h : Grammatical (.unary op a)) : Grammatical a :=
  h.of_every fun p hp => by simp_all [every]

theorem left (h : Grammatical (.binary op a b)) : Grammatical a :=
  h.of_every fun p hp => by simp_all [every]

theorem right (h : Grammatical (.binary op a b)) : Grammatical b :=
  h.of_every fun p hp => by simp_all [every]

theorem goto (h : Grammatical (.goto a)) : Grammatical a :=
  h.of_every fun p hp => by simp_all [every]

theorem evaluation (h : Grammatical (.evaluation a)) : Grammatical a :=
  h.of_every fun p hp => by simp_all [every]

theorem assigned (h : Grammatical (.assignment a op b)) : Grammatical a ∧ Grammatical b :=
  ⟨h.of_every fun p hp => by simp_all [every], h.of_every fun p hp => by simp_all [every]⟩

variable {body otherwise : List Node}

theorem ifThen (h : Grammatical (.ifThen a body)) :
    Grammatical a ∧ ∀ s ∈ body, Grammatical s :=
  ⟨h.of_every fun p hp => by simp_all [every],
    fun s hs => h.of_every fun p hp => by simp_all [every]⟩

theorem ifElse (h : Grammatical (.ifElse a body otherwise)) :
    Grammatical a ∧ (∀ s ∈ body, Grammatical s) ∧ ∀ s ∈ otherwise, Grammatical s :=
  ⟨h.of_every fun p hp => by simp_all [every],
    fun s hs => h.of_every fun p hp => by simp_all [every],
    fun s hs => h.of_every fun p hp => by simp_all [every]⟩

theorem line (h : Grammatical (.line body)) : ∀ s ∈ body, Grammatical s :=
  fun s hs => h.of_every fun p hp => by simp_all [every]

end Grammatical

/-! ## Expressions by their construction -/

/-- A grammatical expression, with what its operators ask of their operands. -/
inductive WellBuilt : Node → Prop where
  | number {n} (nonneg : 0 ≤ n.raw) : WellBuilt (.value (.number n))
  | text {s} : WellBuilt (.value (.text s))
  | identifier {id} (name : ':' ∉ id.name.toList) : WellBuilt (.value (.identifier id))
  | group {inner} (inside : WellBuilt inner) : WellBuilt (.value (.group inner))
  | step {op id} (isStep : op.isStep = true) (name : ':' ∉ id.name.toList) :
      WellBuilt (.unary op (.value (.identifier id)))
  | factorial {a} (operand : WellBuilt a) (level : 8 ≤ a.level) :
      WellBuilt (.unary .factorial a)
  | leading {op a} (operator : op.unaryLevel = 9) (operand : WellBuilt a) (level : 9 ≤ a.level)
      (apart : (Node.unary op a).isClashFree = true) : WellBuilt (.unary op a)
  | power {a b} (left : WellBuilt a) (right : WellBuilt b) (leftLevel : 7 < a.level)
      (rightLevel : 7 ≤ b.level) : WellBuilt (.binary .pow a b)
  | operation {op a b} (loose : 1 ≤ op.binaryLevel ∧ op.binaryLevel ≤ 6) (left : WellBuilt a)
      (right : WellBuilt b) (leftLevel : op.binaryLevel ≤ a.level)
      (rightLevel : op.binaryLevel < b.level)
      (apart : (Node.binary op a b).isClashFree = true) : WellBuilt (.binary op a b)

theorem binaryLevel_le_six {op : Operator} (h : op ≠ .pow) : op.binaryLevel ≤ 6 := by
  cases op <;> first | decide | exact absurd rfl h

theorem unaryLevel_of_isStep {op : Operator} (h : op.isStep = true) : op.unaryLevel = 10 := by
  cases op <;> first | rfl | cases h

theorem WellBuilt.one_le_level {e : Node} (h : WellBuilt e) : 1 ≤ e.level := by
  cases h with
  | step hstep => simp [level, unaryLevel_of_isStep hstep]
  | leading hop => simp [level, hop]
  | operation hloose => exact hloose.1
  | _ => exact Nat.le_of_ble_eq_true rfl

theorem exists_of_isVariable {a : Node} (h : a.isVariable = true) :
    ∃ id, a = .value (.identifier id) := by
  unfold isVariable at h
  split at h
  · exact ⟨_, rfl⟩
  · cases h

/-- Every grammatical expression is well built. -/
theorem wellBuilt_of_grammatical (e : Node) (h : Grammatical e) (hlevel : 1 ≤ e.level) :
    WellBuilt e := by
  have hlayered := h.layered
  have happart := h.apart
  match e with
  | .value a =>
    have hleaf := every_self h.value.legible
    match a with
    | .number n => exact .number (by simpa [isLegible] using hleaf)
    | .text s => exact .text
    | .identifier id => exact .identifier (by simpa [isLegible] using hleaf)
    | .group inner =>
      have hinner : 1 ≤ inner.level := by simpa [isLayered] using h.value.layered
      exact .group (wellBuilt_of_grammatical inner h.value.group hinner)
  | .unary op a =>
    by_cases hfactorial : op = .factorial
    · subst hfactorial
      have hoperand : 8 ≤ a.level := by simpa [isLayered] using hlayered
      exact .factorial (wellBuilt_of_grammatical a h.unary (by omega)) hoperand
    cases hstep : op.isStep with
    | true =>
      have hvariable : a.isVariable = true := by simpa [isLayered, hstep] using hlayered
      obtain ⟨id, rfl⟩ := exists_of_isVariable hvariable
      have hleaf := every_self h.unary.value.legible
      exact .step hstep (by simpa [isLegible] using hleaf)
    | false =>
      obtain ⟨hop, hoperand⟩ : op.unaryLevel = 9 ∧ 9 ≤ a.level := by
        simpa [isLayered, hstep] using hlayered
      exact .leading hop (wellBuilt_of_grammatical a h.unary (by omega)) hoperand happart
  | .binary op a b =>
    by_cases hpow : op = .pow
    · subst hpow
      obtain ⟨hleft, hright⟩ : 7 < a.level ∧ 7 ≤ b.level := by simpa [isLayered] using hlayered
      exact .power (wellBuilt_of_grammatical a h.left (by omega))
        (wellBuilt_of_grammatical b h.right (by omega)) hleft hright
    · obtain ⟨hop, hleft, hright⟩ :
          1 ≤ op.binaryLevel ∧ op.binaryLevel ≤ a.level ∧ op.binaryLevel < b.level := by
        simpa [isLayered, hpow] using hlayered
      exact .operation ⟨hop, binaryLevel_le_six hpow⟩
        (wellBuilt_of_grammatical a h.left (by omega))
        (wellBuilt_of_grammatical b h.right (by omega)) hleft hright happart
  | .missing | .misfit .. | .number _ | .text _ | .identifier _ | .group _ | .comment _ | .goto _
  | .ifThen .. | .ifElse .. | .assignment .. | .evaluation _ | .line _ | .program _ => cases hlevel

/-! ## Statements by their construction -/

/-- A grammatical statement, with what is asked of its parts. -/
inductive WellPhrased : Node → Prop where
  | comment {s} : WellPhrased (.comment s)
  | goto {e} (target : WellBuilt e) : WellPhrased (.goto e)
  | assignment {id op e} (name : ':' ∉ id.name.toList) (operator : op.isAssignment = true)
      (value : WellBuilt e) : WellPhrased (.assignment (.identifier id) op e)
  | evaluation {e} (value : WellBuilt e) : WellPhrased (.evaluation e)
  | ifThen {c body} (condition : WellBuilt c) (statements : ∀ s ∈ body, WellPhrased s)
      (apart : separated body = true) : WellPhrased (.ifThen c body)
  | ifElse {c body otherwise} (condition : WellBuilt c) (statements : ∀ s ∈ body, WellPhrased s)
      (apart : separated body = true) (nonempty : otherwise ≠ [])
      (otherStatements : ∀ s ∈ otherwise, WellPhrased s)
      (otherApart : separated otherwise = true) : WellPhrased (.ifElse c body otherwise)

theorem exists_of_isIdentifier {a : Node} (h : a.isIdentifier = true) :
    ∃ id, a = .identifier id := by
  cases a <;> first | exact ⟨_, rfl⟩ | cases h

/-- Every grammatical statement is well phrased. -/
theorem wellPhrased_of_grammatical (s : Node) (h : Grammatical s)
    (hstatement : s.isStatement = true) : WellPhrased s := by
  have hlayered := h.layered
  have happart := h.apart
  match s with
  | .comment _ => exact .comment
  | .goto e =>
    have hlevel : 1 ≤ e.level := by simpa [isLayered] using hlayered
    exact .goto (wellBuilt_of_grammatical e h.goto hlevel)
  | .evaluation e =>
    have hlevel : 1 ≤ e.level := by simpa [isLayered] using hlayered
    exact .evaluation (wellBuilt_of_grammatical e h.evaluation hlevel)
  | .assignment target op e =>
    obtain ⟨htarget, hop, hlevel⟩ :
        target.isIdentifier = true ∧ op.isAssignment = true ∧ 1 ≤ e.level := by
      simpa [isLayered] using hlayered
    obtain ⟨id, rfl⟩ := exists_of_isIdentifier htarget
    have hname := every_self h.assigned.1.legible
    exact .assignment (by simpa [isLegible] using hname) hop
      (wellBuilt_of_grammatical e h.assigned.2 hlevel)
  | .ifThen c body =>
    obtain ⟨hlevel, hbody⟩ : 1 ≤ c.level ∧ ∀ s ∈ body, s.isStatement = true := by
      simpa [isLayered] using hlayered
    refine .ifThen (wellBuilt_of_grammatical c h.ifThen.1 hlevel) ?_ happart
    intro s hs
    exact wellPhrased_of_grammatical s (h.ifThen.2 s hs) (hbody s hs)
  | .ifElse c body otherwise =>
    obtain ⟨hlevel, hbody, hotherwise⟩ : 1 ≤ c.level ∧ (∀ s ∈ body, s.isStatement = true) ∧
        ∀ s ∈ otherwise, s.isStatement = true := by
      simpa [isLayered] using hlayered
    obtain ⟨hcondition, hfirst, hsecond⟩ := h.ifElse
    obtain ⟨hnonempty, hapart, hotherApart⟩ :
        otherwise ≠ [] ∧ separated body = true ∧ separated otherwise = true := by
      simpa [isClashFree] using happart
    refine .ifElse (wellBuilt_of_grammatical c hcondition hlevel) ?_ hapart hnonempty ?_ hotherApart
    · intro s hs
      exact wellPhrased_of_grammatical s (hfirst s hs) (hbody s hs)
    · intro s hs
      exact wellPhrased_of_grammatical s (hsecond s hs) (hotherwise s hs)
  | .misfit .. => cases h.legible
  | .missing | .number _ | .text _ | .identifier _ | .group _ | .value _ | .unary .. | .binary ..
  | .line _ | .program _ => cases hstatement
termination_by sizeOf s
decreasing_by
  all_goals
    have hsmaller := List.sizeOf_lt_of_mem hs
    simp only [Node.ifThen.sizeOf_spec, Node.ifElse.sizeOf_spec]
    omega

theorem Grammatical.wellPhrased {statements : List Node} (h : Grammatical (.line statements)) :
    ∀ s ∈ statements, WellPhrased s := by
  have hlayered : ∀ s ∈ statements, s.isStatement = true := by simpa [isLayered] using h.layered
  intro s hs
  exact wellPhrased_of_grammatical s (h.line s hs) (hlayered s hs)

/-! ## First and last symbols -/

theorem isTrailing_of_leading {op : Operator} (h : op.unaryLevel = 9) :
    op.isTrailing = false ∧ op.isStep = false ∧
      ∃ kind, op.kinds = [kind] ∧ Parse.leadingOperator? kind = some op := by
  cases op <;> first | exact ⟨rfl, rfl, _, rfl, rfl⟩ | cases h

theorem head?_append_of_firstKind {a : Node} {kind : Token.Kind} (h : a.firstKind = some kind)
    (bs : List Symbol) : (a.symbols ++ bs).head?.map Symbol.kind = some kind := by
  obtain ⟨first, hfirst, rfl⟩ := Option.map_eq_some_iff.mp h
  simp [List.head?_append, hfirst]

/-- An expression starts like an operand of any operation. -/
theorem WellBuilt.opens {e : Node} (h : WellBuilt e) :
    ∃ kind, e.firstKind = some kind ∧ Parse.isOpening kind = true := by
  induction h with
  | number => exact ⟨.number, rfl, rfl⟩
  | text => exact ⟨.string, rfl, rfl⟩
  | identifier => exact ⟨.identifier, rfl, rfl⟩
  | group => exact ⟨.lparen, rfl, rfl⟩
  | @step op _ hstep =>
    rw [firstKind, symbols]
    cases op <;> first | exact ⟨_, rfl, rfl⟩ | cases hstep
  | factorial _ _ ih =>
    obtain ⟨kind, hfirst, hopening⟩ := ih
    exact ⟨kind, head?_append_of_firstKind hfirst _, hopening⟩
  | leading hop =>
    obtain ⟨htrailing, -, kind, hkinds, hleading⟩ := isTrailing_of_leading hop
    refine ⟨kind, ?_, ?_⟩
    · simp [firstKind, symbols, htrailing, Operator.symbols, hkinds, Symbol.kind]
    · cases kind <;> first | rfl | cases hleading
  | power _ _ _ _ ih =>
    obtain ⟨kind, hfirst, hopening⟩ := ih
    exact ⟨kind, head?_append_of_firstKind hfirst _, hopening⟩
  | operation _ _ _ _ _ _ ih =>
    obtain ⟨kind, hfirst, hopening⟩ := ih
    exact ⟨kind, head?_append_of_firstKind hfirst _, hopening⟩

theorem WellBuilt.symbols_ne_nil {e : Node} (h : WellBuilt e) : e.symbols ≠ [] := by
  intro hempty
  obtain ⟨kind, hfirst, -⟩ := h.opens
  simp [firstKind, hempty] at hfirst

theorem lastKind_binary {op : Operator} {a b : Node} (h : b.symbols ≠ []) :
    (Node.binary op a b).lastKind = b.lastKind := by
  obtain ⟨c, hc⟩ := Option.ne_none_iff_exists'.mp (mt List.getLast?_eq_none_iff.mp h)
  simp [lastKind, symbols, List.getLast?_append, hc]

theorem lastKind_leading {op : Operator} {a : Node} (hop : op.isTrailing = false)
    (h : a.symbols ≠ []) : (Node.unary op a).lastKind = a.lastKind := by
  obtain ⟨c, hc⟩ := Option.ne_none_iff_exists'.mp (mt List.getLast?_eq_none_iff.mp h)
  simp [lastKind, symbols, hop, List.getLast?_append, hc]

theorem lastKind_factorial (a : Node) : (Node.unary .factorial a).lastKind = some .exclam := by
  simp [lastKind, symbols, Operator.isTrailing, Operator.symbols, Operator.kinds, Symbol.kind]

end Node

namespace Parse

/-! ## Where expressions end -/

/-- The level of the operator in front; zero if there is none. -/
def joint : List Token → Nat
  | [] => 0
  | t :: ts =>
    match t.kind with
    | .exclam => if kindAt ts = some .equal then 3 else 8
    | .caret => 7
    | .star | .slash | .percent => 6
    | .plus | .minus => 5
    | .langle | .rangle => 4
    | .equal => if kindAt ts = some .equal then 3 else 0
    | .orWord => 2
    | .andWord => 1
    | _ => 0

theorem joint_le (ts : List Token) : joint ts ≤ 8 := by
  cases ts with
  | nil => exact Nat.zero_le 8
  | cons t ts =>
    rw [joint]
    split <;> first | decide | (split <;> decide)

theorem joint_of_operatorAt? {tier : Tier} {ts : List Token} {op : Operator} {more : Nat}
    (h : tier.operatorAt? ts = some (op, more)) : joint ts = tier.level := by
  cases ts with
  | nil => cases h
  | cons t ts =>
    simp only [Tier.operatorAt?, Tier.operator?] at h
    unfold joint
    split at h <;> simp_all [Tier.level]

theorem operatorAt?_eq_none {tier : Tier} {ts : List Token} (h : joint ts ≠ tier.level) :
    tier.operatorAt? ts = none := by
  cases hop : tier.operatorAt? ts with
  | none => rfl
  | some found => exact absurd (joint_of_operatorAt? hop) h

theorem operatorAt?_isSome {tier : Tier} {ts : List Token} (h : joint ts = tier.level) :
    (tier.operatorAt? ts).isSome = true := by
  cases ts with
  | nil => cases tier <;> cases h
  | cons t ts =>
    unfold joint at h
    cases tier <;> simp only [Tier.level] at h <;> split at h <;>
      simp_all [Tier.operatorAt?, Tier.operator?] <;> split at h <;> simp_all

theorem joint_of_caret {ts : List Token} (h : kindAt ts = some .caret) : joint ts = 7 := by
  obtain ⟨t, ts, rfl, hkind⟩ := kindAt_eq_some h
  simp [joint, hkind]

theorem kindAt_of_joint_eq_seven {ts : List Token} (h : joint ts = 7) :
    kindAt ts = some .caret := by
  cases ts with
  | nil => cases h
  | cons t ts =>
    rw [joint] at h
    split at h <;> simp_all
    all_goals split at h <;> cases h

theorem joint_eq_eight {ts : List Token} : joint ts = 8 ↔ factorialAt ts := by
  cases ts with
  | nil => simp [joint, factorialAt]
  | cons t ts =>
    rw [joint, factorialAt]
    split <;> simp_all
    split <;> simp_all

/-- What stands behind `e` is not drawn into it: no step, and no equals sign that would
    make a comparison of its last factorial. -/
structure Follow (e : Node) (rest : List Token) : Prop where
  step : e.endsInName = true → ∀ {sign}, sign = .plus ∨ sign = .minus →
    kindAt rest = some sign → kindAt rest.tail ≠ some sign
  equal : e.lastKind = some .exclam → kindAt rest ≠ some .equal

end Parse

end Yolol

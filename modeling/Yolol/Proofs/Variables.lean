-- SUMMARY: Parsed trees by their construction, over the variables that occur in them.
import Yolol.Proofs.Grammatical

/-!
# Trees over variables

A program names its variables in its text, and a tree that the parser builds has no others:
what is read, stepped or assigned is always an identifier. The shape of such a tree is that
of a stratified one, given here by its construction.
-/

namespace Yolol.Node

/-! ## Variables of a tree -/

mutual
/-- The variables that occur in a tree. -/
def identifiers : Node → List Identifier
  | .missing | .misfit .. | .number _ | .text _ | .comment _ => []
  | .identifier id => [id]
  | .group a | .value a | .unary _ a | .goto a | .evaluation a => a.identifiers
  | .binary _ a b | .assignment a _ b => a.identifiers ++ b.identifiers
  | .ifThen c body => c.identifiers ++ identifiersAll body
  | .ifElse c body otherwise => c.identifiers ++ (identifiersAll body ++ identifiersAll otherwise)
  | .line as | .program as => identifiersAll as

def identifiersAll : List Node → List Identifier
  | [] => []
  | a :: as => a.identifiers ++ identifiersAll as
end

theorem identifiers_subset_of_mem {as : List Node} {a : Node} (h : a ∈ as) :
    a.identifiers ⊆ identifiersAll as := by
  induction as with
  | nil => cases h
  | cons b as ih =>
    rw [identifiersAll]
    rcases List.mem_cons.mp h with rfl | h
    · exact List.subset_append_left _ _
    · exact List.Subset.trans (ih h) (List.subset_append_right _ _)

/-- An expression over some variables, as the parser builds it. -/
inductive BuiltFrom (ids : List Identifier) : Node → Prop where
  | number {n} : BuiltFrom ids (.value (.number n))
  | text {s} : BuiltFrom ids (.value (.text s))
  | misfit {content} : BuiltFrom ids (.value (.misfit .text content))
  | identifier {id} (name : id ∈ ids) : BuiltFrom ids (.value (.identifier id))
  | group {inner} (inside : BuiltFrom ids inner) : BuiltFrom ids (.value (.group inner))
  | step {op id} (isStep : op.isStep = true) (name : id ∈ ids) :
      BuiltFrom ids (.unary op (.value (.identifier id)))
  | unary {op a} (plain : op.isStep = false) (operand : BuiltFrom ids a) :
      BuiltFrom ids (.unary op a)
  | binary {op a b} (left : BuiltFrom ids a) (right : BuiltFrom ids b) :
      BuiltFrom ids (.binary op a b)

/-- A statement over some variables, as the parser builds it. -/
inductive PhrasedFrom (ids : List Identifier) : Node → Prop where
  | comment {s} : PhrasedFrom ids (.comment s)
  | misfit {content} : PhrasedFrom ids (.misfit .comment content)
  | goto {e} (target : BuiltFrom ids e) : PhrasedFrom ids (.goto e)
  | assignment {id op e} (name : id ∈ ids) (operator : op.isAssignment = true)
      (value : BuiltFrom ids e) : PhrasedFrom ids (.assignment (.identifier id) op e)
  | evaluation {e} (value : BuiltFrom ids e) : PhrasedFrom ids (.evaluation e)
  | ifThen {c body} (condition : BuiltFrom ids c) (statements : ∀ s ∈ body, PhrasedFrom ids s) :
      PhrasedFrom ids (.ifThen c body)
  | ifElse {c body otherwise} (condition : BuiltFrom ids c)
      (statements : ∀ s ∈ body, PhrasedFrom ids s)
      (otherStatements : ∀ s ∈ otherwise, PhrasedFrom ids s) :
      PhrasedFrom ids (.ifElse c body otherwise)

variable {ids : List Identifier}

theorem builtFrom_value {a : Node} (hvalue : a.isValue = true)
    (hname : ∀ id, a = .identifier id → id ∈ ids)
    (hinside : ∀ inner, a = .group inner → BuiltFrom ids inner) : BuiltFrom ids (.value a) := by
  fun_cases isValue a with
  | case1 => exact .number
  | case2 => exact .text
  | case3 id => exact .identifier (hname id rfl)
  | case4 inner => exact .group (hinside inner rfl)
  | case5 => exact .misfit
  | case6 => simp_all [isValue]

theorem builtFrom_of_stratified (e : Node) (h : e.Stratified) (hlevel : 1 ≤ e.level)
    (hids : e.identifiers ⊆ ids) : BuiltFrom ids e := by
  have hlayered := every_self h
  match e with
  | .value a =>
    obtain ⟨hvalue, ha⟩ : a.isValue = true ∧ a.Stratified := by
      simpa [Stratified, every, isLayered] using h
    refine builtFrom_value hvalue ?_ ?_
    · rintro id rfl
      exact hids (by simp [identifiers])
    · rintro inner rfl
      obtain ⟨hinner, hstratified⟩ : 1 ≤ inner.level ∧ inner.Stratified := by
        simpa [Stratified, every, isLayered] using ha
      exact builtFrom_of_stratified inner hstratified hinner hids
  | .unary op a =>
    obtain ⟨-, ha⟩ : _ ∧ a.Stratified := by simpa [Stratified, every] using h
    by_cases hfactorial : op = .factorial
    · subst hfactorial
      have hoperand : 8 ≤ a.level := by simpa [isLayered] using hlayered
      exact .unary rfl (builtFrom_of_stratified a ha (by omega) hids)
    cases hstep : op.isStep with
    | true =>
      have hvariable : a.isVariable = true := by simpa [isLayered, hstep] using hlayered
      obtain ⟨id, rfl⟩ := exists_of_isVariable hvariable
      exact .step hstep (hids (by simp [identifiers]))
    | false =>
      obtain ⟨-, hoperand⟩ : op.unaryLevel = 9 ∧ 9 ≤ a.level := by
        simpa [isLayered, hstep] using hlayered
      exact .unary hstep (builtFrom_of_stratified a ha (by omega) hids)
  | .binary op a b =>
    obtain ⟨-, ha, hb⟩ : _ ∧ a.Stratified ∧ b.Stratified := by simpa [Stratified, every] using h
    obtain ⟨hleft, hright⟩ : a.identifiers ⊆ ids ∧ b.identifiers ⊆ ids := by
      simpa [identifiers, List.append_subset] using hids
    have hlevels : 1 ≤ a.level ∧ 1 ≤ b.level := by
      by_cases hpow : op = .pow
      · subst hpow
        obtain ⟨hleft, hright⟩ : 7 < a.level ∧ 7 ≤ b.level := by simpa [isLayered] using hlayered
        omega
      · obtain ⟨hop, hleft, hright⟩ :
            1 ≤ op.binaryLevel ∧ op.binaryLevel ≤ a.level ∧ op.binaryLevel < b.level := by
          simpa [isLayered, hpow] using hlayered
        omega
    exact .binary (builtFrom_of_stratified a ha hlevels.1 hleft)
      (builtFrom_of_stratified b hb hlevels.2 hright)
  | .missing | .misfit .. | .number _ | .text _ | .identifier _ | .group _ | .comment _ | .goto _
  | .ifThen .. | .ifElse .. | .assignment .. | .evaluation _ | .line _ | .program _ => cases hlevel
termination_by sizeOf e

theorem phrasedFrom_of_stratified (s : Node) (h : s.Stratified) (hstatement : s.isStatement = true)
    (hids : s.identifiers ⊆ ids) : PhrasedFrom ids s := by
  have hlayered := every_self h
  match s with
  | .comment _ => exact .comment
  | .misfit .comment _ => exact .misfit
  | .goto e =>
    obtain ⟨-, he⟩ : _ ∧ e.Stratified := by simpa [Stratified, every] using h
    have hlevel : 1 ≤ e.level := by simpa [isLayered] using hlayered
    exact .goto (builtFrom_of_stratified e he hlevel hids)
  | .evaluation e =>
    obtain ⟨-, he⟩ : _ ∧ e.Stratified := by simpa [Stratified, every] using h
    have hlevel : 1 ≤ e.level := by simpa [isLayered] using hlayered
    exact .evaluation (builtFrom_of_stratified e he hlevel hids)
  | .assignment target op e =>
    obtain ⟨-, -, he⟩ : _ ∧ _ ∧ e.Stratified := by simpa [Stratified, every] using h
    obtain ⟨htarget, hop, hlevel⟩ :
        target.isIdentifier = true ∧ op.isAssignment = true ∧ 1 ≤ e.level := by
      simpa [isLayered] using hlayered
    obtain ⟨id, rfl⟩ := exists_of_isIdentifier htarget
    obtain ⟨hname, hvalue⟩ : id ∈ ids ∧ e.identifiers ⊆ ids := by
      simpa [identifiers] using hids
    exact .assignment hname hop (builtFrom_of_stratified e he hlevel hvalue)
  | .ifThen c body =>
    obtain ⟨-, hc, hbody⟩ : _ ∧ c.Stratified ∧ ∀ s ∈ body, s.Stratified := by
      simpa [Stratified, every] using h
    obtain ⟨hlevel, hstatements⟩ : 1 ≤ c.level ∧ ∀ s ∈ body, s.isStatement = true := by
      simpa [isLayered] using hlayered
    obtain ⟨hcondition, hrest⟩ : c.identifiers ⊆ ids ∧ identifiersAll body ⊆ ids := by
      simpa [identifiers, List.append_subset] using hids
    refine .ifThen (builtFrom_of_stratified c hc hlevel hcondition) fun s hs => ?_
    exact phrasedFrom_of_stratified s (hbody s hs) (hstatements s hs)
      (List.Subset.trans (identifiers_subset_of_mem hs) hrest)
  | .ifElse c body otherwise =>
    obtain ⟨-, hc, hbody, hotherwise⟩ : _ ∧ c.Stratified ∧ (∀ s ∈ body, s.Stratified) ∧
        ∀ s ∈ otherwise, s.Stratified := by
      simpa [Stratified, every] using h
    obtain ⟨hlevel, hstatements, hothers⟩ : 1 ≤ c.level ∧ (∀ s ∈ body, s.isStatement = true) ∧
        ∀ s ∈ otherwise, s.isStatement = true := by
      simpa [isLayered] using hlayered
    obtain ⟨hcondition, hfirst, hsecond⟩ :
        c.identifiers ⊆ ids ∧ identifiersAll body ⊆ ids ∧ identifiersAll otherwise ⊆ ids := by
      simpa [identifiers, List.append_subset] using hids
    refine .ifElse (builtFrom_of_stratified c hc hlevel hcondition) (fun s hs => ?_) fun s hs => ?_
    · exact phrasedFrom_of_stratified s (hbody s hs) (hstatements s hs)
        (List.Subset.trans (identifiers_subset_of_mem hs) hfirst)
    · exact phrasedFrom_of_stratified s (hotherwise s hs) (hothers s hs)
        (List.Subset.trans (identifiers_subset_of_mem hs) hsecond)
  | .missing | .number _ | .text _ | .identifier _ | .group _ | .value _ | .unary .. | .binary ..
  | .line _ | .program _ => cases hstatement
termination_by sizeOf s
decreasing_by
  all_goals
    have hsmaller := List.sizeOf_lt_of_mem hs
    simp only [Node.ifThen.sizeOf_spec, Node.ifElse.sizeOf_spec]
    omega

theorem exists_of_isLine {a : Node} (h : a.isLine = true) : ∃ statements, a = .line statements := by
  cases a <;> first | exact ⟨_, rfl⟩ | cases h

/-- The statements of a line are phrased from its variables. -/
theorem phrasedFrom_of_line {statements : List Node} (h : (Node.line statements).Stratified)
    (hids : (Node.line statements).identifiers ⊆ ids) :
    ∀ s ∈ statements, PhrasedFrom ids s := by
  obtain ⟨hstatements, hstratified⟩ :
      (∀ s ∈ statements, s.isStatement = true) ∧ ∀ s ∈ statements, s.Stratified := by
    simpa [Stratified, every, isLayered] using h
  intro s hs
  exact phrasedFrom_of_stratified s (hstratified s hs) (hstatements s hs)
    (List.Subset.trans (identifiers_subset_of_mem hs) hids)

/-- Lines whose statements are phrased from the variables. -/
def LinesFrom (ids : List Identifier) (lines : List Node) : Prop :=
  ∀ line ∈ lines, ∃ statements, line = .line statements ∧ ∀ s ∈ statements, PhrasedFrom ids s

/-- The lines of a program that was parsed are phrased from its own variables. -/
theorem linesFrom_of_program {ts : List Token} {lines : List Node}
    (h : (Parse.program ts).result = .ok (.program lines)) :
    LinesFrom (Node.program lines).identifiers lines := by
  have hstratified : (Node.program lines).Stratified := by
    have htrees : ∀ n ∈ Parse.trees Parse.StatementFault.fragments (Parse.program ts).result,
        n.Stratified := Parse.programFrom_stratified (by simp) (by simp)
    rw [h] at htrees
    exact htrees _ (List.mem_singleton_self _)
  obtain ⟨hlines, hall⟩ : (∀ l ∈ lines, l.isLine = true) ∧ ∀ l ∈ lines, l.Stratified := by
    simpa [Stratified, every, isLayered] using hstratified
  intro line hline
  obtain ⟨statements, rfl⟩ := exists_of_isLine (hlines line hline)
  exact ⟨statements, rfl, phrasedFrom_of_line (hall _ hline) (identifiers_subset_of_mem hline)⟩

end Yolol.Node

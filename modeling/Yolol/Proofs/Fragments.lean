-- SUMMARY: The fragment that a fault keeps is written with tokens that were read.
import Yolol.Proofs.LineByLine

/-!
# Fragments

A fault keeps the tree that had been built before it, and on its way out of a binary
operation it keeps the left operand instead. Whichever rule reports the fault, the fragment
is written with neighbouring tokens, all of them read by the time the cursor stops. What a
rule carries along from before its own tokens is carried through the proofs as well.
-/

namespace Yolol

/-- The symbols of a fragment: those of the tree, but for the end of a conditional, which has
    not been read. -/
def Node.openSymbols : Node → List Symbol
  | .ifThen c body => .mark .ifWord :: (c.symbols ++ .mark .thenWord :: symbolsAll body)
  | .ifElse c body otherwise =>
    .mark .ifWord :: (c.symbols ++ .mark .thenWord :: (symbolsAll body ++
      .mark .elseWord :: symbolsAll otherwise))
  | node => node.symbols

theorem Node.openSymbols_conditional (c : Node) (body otherwise : List Node) :
    (conditional c body otherwise).openSymbols =
      .mark .ifWord :: (c.symbols ++ .mark .thenWord ::
        (symbolsAll body ++ elsePart otherwise)) := by
  cases otherwise <;> simp [conditional, openSymbols, elsePart]

end Yolol

namespace Yolol.Parse

/-! ## Stretches of tokens -/

/-- The tokens of `ts` in front of `rest` are those of an expression and stand for the
    symbols. -/
structure Reads (ts : List Token) (as : List Symbol) (rest : List Token) : Prop where
  spells : Spells ts as rest
  passes : Passes ts rest

namespace Reads

variable {ts mid rest : List Token} {as bs : List Symbol}

theorem nil : Reads ts [] ts := ⟨.nil, .refl⟩

theorem append (h : Reads ts as mid) (h' : Reads mid bs rest) : Reads ts (as ++ bs) rest :=
  ⟨h.spells.append h'.spells, h.passes.trans h'.passes⟩

theorem suffix (h : Reads ts as rest) : rest <:+ ts := h.spells.suffix

theorem operator {op : Operator} (h : Spells ts op.symbols rest) : Reads ts op.symbols rest :=
  ⟨h, .of_spells h⟩

end Reads

/-- A rule reads on behind the tokens that it carries along. -/
theorem Derives.reads {rule : Rule} {us ts rest : List Token} {e : Node}
    (h : Derives rule ts e rest) (hseen : Reads us rule.seen ts)
    (hfit : ∀ t ∈ us, t.misfit = none) : Reads us e.symbols rest := by
  obtain ⟨symbols, hspells, he⟩ := h.spells fun t ht => hfit t (hseen.suffix.subset ht)
  rw [he]
  exact hseen.append ⟨hspells, h.passes⟩

/-- `Shows ts as rest`: neighbouring tokens of `ts` in front of `rest` stand for the symbols,
    up to empty else parts. -/
def Shows (ts : List Token) (as : List Symbol) (rest : List Token) : Prop :=
  ∃ mid fin bs, mid <:+ ts ∧ Spells mid bs fin ∧ rest <:+ fin ∧ dropEmptyElse bs = as

namespace Shows

variable {us ts mid rest : List Token} {as : List Symbol}

theorem mono (h : Shows ts as rest) (hsuffix : ts <:+ us) : Shows us as rest := by
  obtain ⟨mid, fin, bs, hmid, hshown⟩ := h
  exact ⟨mid, fin, bs, hmid.trans hsuffix, hshown⟩

/-- Symbols of an expression hold no else part. -/
theorem of_reads (h : Reads ts as mid) (hrest : rest <:+ mid) : Shows ts as rest := by
  refine ⟨ts, mid, as, List.suffix_rfl, h.spells, hrest, ?_⟩
  have hnone : .mark .elseWord ∉ as := not_mem_of_inner (h.passes.inner h.spells) rfl
  simpa [dropEmptyElse] using dropEmptyElse_of_not_mem hnone []

end Shows

/-! ## Expressions -/

/-- What a failure keeps. A token without meaning keeps nothing. -/
def Failure.kept {φ : Type} (fragment : φ → Option Node) : Failure φ → Option Node
  | .fault f => fragment f
  | .token _ => none

/-- A fragment of an expression was read by the rule, or is what the rule carries along. -/
theorem Fails.shows {rule : Rule} {us ts rest : List Token} {f : Failure ExpressionFault}
    {e : Node} (h : Fails rule ts f rest) (hkept : f.kept ExpressionFault.fragment = some e)
    (hseen : Reads us rule.seen ts) (hfit : ∀ t ∈ us, t.misfit = none) :
    Shows us e.symbols rest := by
  induction h generalizing us with
  | chainFirst _ ih | operandChain _ _ ih | operandPower _ _ ih | powerFirst _ ih
  | repeated _ ih | unaryAtom _ ih | atomSingle _ _ ih => exact ih hkept hseen hfit
  | chainMore hfirst _ ih => exact ih hkept (hfirst.reads hseen hfit) hfit
  | extendAbsent hoperator =>
    cases hkept
    exact .of_reads hseen (WithinLine.operator hoperator).suffix
  | extendFault hoperator hoperand =>
    cases hkept
    exact .of_reads hseen (hoperand.withinLine.suffix.trans (WithinLine.operator hoperator).suffix)
  | extendToken | unaryAbsent | atomStep | number | identifier | groupAbsent => cases hkept
  | extendStep hoperator hoperand _ ih =>
    have hop := Reads.operator (operator?_symbols hoperator)
    have hbehind := hop.suffix.trans hseen.suffix
    have hright := hoperand.reads .nil fun t ht => hfit t (hbehind.subset ht)
    exact ih hkept (hseen.append (hop.append hright)) hfit
  | powerAbsent hfirst =>
    cases hkept
    exact .of_reads (hfirst.reads hseen hfit) (List.suffix_cons _ _)
  | powerStep hfirst _ _ ih =>
    have hbehind := (List.suffix_cons _ _).trans (hfirst.reads hseen hfit).suffix
    exact (ih hkept .nil fun t ht => hfit t (hbehind.subset ht)).mono hbehind
  | unaryLeading _ _ _ ih | groupContent _ _ ih =>
    have hbehind := (List.suffix_cons _ _).trans hseen.suffix
    exact (ih hkept .nil fun t ht => hfit t (hbehind.subset ht)).mono hbehind
  | groupUnclosed _ hcontent =>
    cases hkept
    have hbehind := (List.suffix_cons _ _).trans hseen.suffix
    have hinner := hcontent.reads .nil fun t ht => hfit t (hbehind.subset ht)
    exact (Shows.of_reads hinner List.suffix_rfl).mono hbehind

/-- A fragment of an expression counts as a statement of its own. -/
theorem Stuck.shows {us ts rest : List Token} {f : Failure ExpressionFault} {node : Node}
    (h : Stuck ts f rest) (hkept : f.ofExpression.kept StatementFault.fragment = some node)
    (hbehind : ts <:+ us) (hfit : ∀ t ∈ us, t.misfit = none) :
    Shows us node.openSymbols rest := by
  have hevaluation : f.ofExpression.kept StatementFault.fragment =
      (f.kept ExpressionFault.fragment).map .evaluation := by
    cases f <;> rfl
  rw [hevaluation] at hkept
  obtain ⟨e, he, rfl⟩ := Option.map_eq_some_iff.mp hkept
  cases h with
  | within hfails =>
    have hshown : Shows ts e.symbols rest :=
      hfails.shows he .nil fun t ht => hfit t (hbehind.subset ht)
    simpa only [Node.openSymbols, Node.symbols] using hshown.mono hbehind
  | before => cases he

/-! ## Statements -/

/-- `Underway us phase ts`: in `phase` and in front of `ts`, the tokens of `us` have been
    read. -/
inductive Underway (us : List Token) : Phase → List Token → Prop where
  | statement : Underway us .statement us
  | branches {condition body otherwise as mid ts} (read : Spells us as mid)
      (settled : Settled as)
      (seen : dropEmptyElse as = (Phase.branches condition body otherwise).seen)
      (pending : Spells mid (Phase.branches condition body otherwise).pending ts) :
      Underway us (.branches condition body otherwise) ts

namespace Underway

variable {us ts rest : List Token} {condition : Node} {body otherwise : List Node}

theorem suffix {phase : Phase} (h : Underway us phase ts) : ts <:+ us := by
  cases h with
  | statement => exact List.suffix_rfl
  | branches hread _ _ hpending => exact hpending.suffix.trans hread.suffix

/-- Behind its condition a conditional has no statements yet. -/
theorem start {t u : Token} (hkind : t.kind = .ifWord) (htest : Reads ts condition.symbols (u :: rest))
    (hthen : u.kind = .thenWord) : Underway (t :: ts) (.branches condition [] none) rest := by
  have hnone : .mark .elseWord ∉ condition.symbols :=
    not_mem_of_inner (htest.passes.inner htest.spells) rfl
  refine .branches (.cons (Token.symbol_eq_mark hkind rfl)
    (htest.spells.append (.cons (Token.symbol_eq_mark hthen rfl) .nil))) ?_ ?_ .nil
  · exact (Settled.append ⟨_, rfl, by simp⟩ condition.symbols).append [_]
  · simp [Phase.seen, Node.symbolsAll, Node.elsePart, dropEmptyElse,
      dropEmptyElse_of_not_mem hnone]

theorem turn {t : Token} (h : Underway us (.branches condition body none) (t :: ts))
    (hkind : t.kind = .elseWord) : Underway us (.branches condition body (some [])) ts := by
  cases h with
  | branches hread hsettled hseen hpending =>
    exact .branches hread hsettled hseen
      (hpending.append (.cons (Token.symbol_eq_mark hkind rfl) .nil))

theorem bodyStep {s : Node} (h : Underway us (.branches condition body none) ts)
    (hfirst : Composes .statement ts s rest) (hfit : ∀ t ∈ us, t.misfit = none) :
    Underway us (.branches condition (body ++ [s]) none) rest := by
  obtain ⟨bs, hbs, hsettled', hs⟩ := hfirst.spells fun t ht => hfit t (h.suffix.subset ht)
  cases h with
  | branches hread hsettled hseen hpending =>
    refine .branches (hread.append (hpending.append hbs)) ?_ ?_ .nil
    · exact (hsettled'.append _).append _
    · simp [Phase.pending, hsettled.dropEmptyElse_append, hseen, hs, Phase.seen, Node.symbolsAll,
        Node.elsePart]

theorem otherwiseStep {s : Node} (h : Underway us (.branches condition body (some otherwise)) ts)
    (hfirst : Composes .statement ts s rest) (hfit : ∀ t ∈ us, t.misfit = none) :
    Underway us (.branches condition body (some (otherwise ++ [s]))) rest := by
  obtain ⟨bs, hbs, hsettled', hs⟩ := hfirst.spells fun t ht => hfit t (h.suffix.subset ht)
  cases h with
  | branches hread hsettled hseen hpending =>
    have hnext : (Phase.branches condition body (some (otherwise ++ [s]))).pending = [] := by
      cases otherwise <;> rfl
    refine .branches (hread.append (hpending.append hbs)) ?_ ?_ (hnext ▸ .nil)
    · exact (hsettled'.append _).append _
    · cases otherwise with
      | nil =>
        -- The word in front of the first statement is no empty else part.
        have hhead : bs.head? ≠ some (.mark .endWord) := by
          simpa using hfirst.head?_ne_end hbs hsettled' []
        simp [Phase.pending, hsettled.dropEmptyElse_append, hseen, hs, Phase.seen,
          Node.symbolsAll, Node.elsePart, dropEmptyElse_cons _ (.inr hhead)]
      | cons first others =>
        simp [Phase.pending, hsettled.dropEmptyElse_append, hseen, hs, Phase.seen,
          Node.symbolsAll, Node.elsePart]

/-- An else part without statements is left out. -/
theorem shows_conditional {otherwise : Option (List Node)}
    (h : Underway us (.branches condition body otherwise) ts) :
    Shows us (Node.conditional condition body (otherwise.getD [])).openSymbols ts := by
  cases h with
  | branches hread _ hseen hpending =>
    rw [Node.openSymbols_conditional]
    exact ⟨us, _, _, List.suffix_rfl, hread, hpending.suffix, hseen⟩

/-- An else part that a second one follows is kept, even without statements. -/
theorem shows_ifElse (h : Underway us (.branches condition body (some otherwise)) ts) :
    Shows us (Node.ifElse condition body otherwise).openSymbols ts := by
  cases h with
  | branches hread hsettled hseen hpending =>
    refine ⟨us, _, _, List.suffix_rfl, hread.append hpending, List.suffix_rfl, ?_⟩
    cases otherwise <;>
      simp [hsettled.dropEmptyElse_append, hseen, Phase.seen, Phase.pending, dropEmptyElse,
        Node.openSymbols, Node.elsePart, Node.symbolsAll]

end Underway

/-- A fragment of a statement was read in the phase or before it. -/
theorem Breaks.shows {phase : Phase} {us ts rest : List Token} {f : Failure StatementFault}
    {node : Node} (h : Breaks phase ts f rest)
    (hkept : f.kept StatementFault.fragment = some node) (hunderway : Underway us phase ts)
    (hfit : ∀ t ∈ us, t.misfit = none) : Shows us node.openSymbols rest := by
  induction h generalizing us with
  | goto _ hstuck | test _ hstuck =>
    exact hstuck.shows hkept ((List.suffix_cons _ _).trans hunderway.suffix) hfit
  | assignmentName | missingThen => cases hkept
  | assignment hspelled _ hstuck =>
    have hvalue := (WithinLine.assignment hspelled).suffix
    exact hstuck.shows hkept (hvalue.trans hunderway.suffix) hfit
  | evaluation _ hstuck => exact hstuck.shows hkept hunderway.suffix hfit
  | conditional hkind htest hthen _ ih =>
    cases hunderway
    have hcondition := htest.reads .nil fun t ht => hfit t (List.mem_cons_of_mem _ ht)
    exact ih hkept (.start hkind hcondition hthen) hfit
  | missingEnd =>
    cases hkept
    exact hunderway.shows_conditional
  | repeatedElse =>
    cases hkept
    exact hunderway.shows_ifElse
  | turn hkind _ ih => exact ih hkept (hunderway.turn hkind) hfit
  | first _ ih =>
    have hbehind := hunderway.suffix
    exact (ih hkept .statement fun t ht => hfit t (hbehind.subset ht)).mono hbehind
  | bodyStep hfirst _ ih => exact ih hkept (hunderway.bodyStep hfirst hfit) hfit
  | otherwiseStep hfirst _ ih => exact ih hkept (hunderway.otherwiseStep hfirst hfit) hfit

/-! ## Positions -/

/-- Whatever the outcome of a statement, what is left was there from the start. -/
theorem suffix_statement (ts : List Token) : (statement ts).value.result.2 <:+ ts := by
  have haccounted := accounted_statement ts
  cases hstep : (statement ts).value with
  | found s rest _ =>
    rw [hstep] at haccounted
    exact haccounted.withinLine.suffix
  | failed f rest _ =>
    rw [hstep] at haccounted
    exact haccounted.withinLine.suffix

/-- What is shown of the tokens from `start` on has a place between `start` and the rest. -/
theorem Shows.exists_extract {ts rest : List Token} {as : List Symbol} {start : ℕ}
    (h : Shows (ts.drop start) as rest) (hstart : start ≤ ts.length) :
    ∃ i j, start ≤ i ∧ i ≤ j ∧ j ≤ ts.length - rest.length ∧
      dropEmptyElse ((ts.extract i j).map Token.symbol) = as := by
  obtain ⟨mid, fin, bs, ⟨front, hfront⟩, ⟨used, rfl, rfl⟩, ⟨back, rfl⟩, hshown⟩ := h
  have hlength := congrArg List.length hfront
  simp only [List.length_append, List.length_drop] at hlength
  have hextract : ts.extract (start + front.length) (start + front.length + used.length) = used := by
    rw [List.extract_eq_take_drop, ← List.drop_drop, ← hfront, List.drop_left,
      Nat.add_sub_cancel_left, List.take_left]
  refine ⟨start + front.length, start + front.length + used.length, by omega, by omega, by omega, ?_⟩
  rw [hextract, hshown]

/-- From any place on, reading a statement stops between that place and the end. If a fault
    kept a fragment, then tokens between the two places are written as the fragment, up to
    empty else parts. -/
theorem fragments_were_read {ts : List Token} (hlex : ∀ t ∈ ts, t.isLexical = true) {start : ℕ}
    (hstart : start ≤ ts.length) :
    let cursor : Cursor := { tokens := ts, position := start }
    let outcome := (statement cursor.rest).value.result
    ∃ stop : ℕ, cursor.moveTo outcome.2 = { cursor with position := stop } ∧
      start ≤ stop ∧ stop ≤ ts.length ∧ ts.drop stop = outcome.2 ∧
      ∀ f node, outcome.1 = .error (.fault f) → f.fragment = some node →
        ∃ i j, start ≤ i ∧ i ≤ j ∧ j ≤ stop ∧
          dropEmptyElse ((ts.extract i j).map Token.symbol) = node.openSymbols := by
  intro cursor outcome
  have hsuffix : outcome.2 <:+ ts.drop start := suffix_statement (ts.drop start)
  have hlength := hsuffix.length_le
  rw [List.length_drop] at hlength
  refine ⟨ts.length - outcome.2.length, ?_, by omega, by omega, ?_, fun f node hfault hnode => ?_⟩
  · simp only [Cursor.moveTo, cursor]
    congr 1
    omega
  · exact (List.suffix_iff_eq_drop.mp (hsuffix.trans (List.drop_suffix _ _))).symm
  · have houtcome : outcome = (.error (.fault f), outcome.2) := Prod.ext hfault rfl
    obtain ⟨_, hfailed⟩ := Step.eq_failed houtcome
    have hbreaks := breaks_of_statement hfailed
    have hfit : ∀ t ∈ ts.drop start, t.misfit = none := fun t ht =>
      Token.misfit_eq_none (hlex t (List.mem_of_mem_drop ht))
    exact (hbreaks.shows hnode .statement hfit).exists_extract hstart

/-- The tokens of `if a then if a then else end else`. -/
def openConditional : List Token :=
  let name : Token := { kind := .identifier, text := some "a" }
  [{ kind := .ifWord }, name, { kind := .thenWord }, { kind := .ifWord }, name,
    { kind := .thenWord }, { kind := .elseWord }, { kind := .endWord }, { kind := .elseWord }]

theorem statement_openConditional : (statement openConditional).value.result =
    (.error (.fault (.missingEnd (.value (.identifier ⟨"a", false⟩))
      [.ifThen (.value (.identifier ⟨"a", false⟩)) []] [])), []) := by
  simp [openConditional, statement, branches, expression, chain, operand, power, repeated,
    unary, atom, step?, single, identifierOf, Identifier.ofSource, Step.ofToken, Step.map,
    factorials, Step.widen, extend, Tier.operator?, Node.conditional, Traced.map, Step.result]

/-- Behind a name, the fragment is the outer conditional without its last `else`, and the empty
    else part of the inner one is left out. -/
theorem fragments_were_read_openConditional :
    let ts : List Token := { kind := .identifier, text := some "a" } :: openConditional
    (∀ t ∈ ts, t.isLexical = true) ∧ 1 ≤ ts.length ∧
      ∃ i j, 1 ≤ i ∧ i ≤ j ∧ j ≤ 10 ∧
        dropEmptyElse ((ts.extract i j).map Token.symbol) =
          [.mark .ifWord, .text .identifier "a", .mark .thenWord, .mark .ifWord,
            .text .identifier "a", .mark .thenWord, .mark .endWord] := by
  intro ts
  have hlex : ∀ t ∈ ts, t.isLexical = true := by decide
  have hstart : 1 ≤ ts.length := by decide
  obtain ⟨stop, -, -, hstop, -, hshown⟩ := fragments_were_read hlex hstart
  obtain ⟨i, j, hi, hij, hj, hsymbols⟩ :=
    hshown _ _ (congrArg Prod.fst statement_openConditional) rfl
  exact ⟨hlex, hstart, i, j, hi, hij, hj.trans hstop, hsymbols⟩

end Yolol.Parse

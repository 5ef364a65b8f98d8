-- SUMMARY: Parsing loses no token: what was read is the tree's own symbols.
import Yolol.Proofs.Lexical
import Yolol.Proofs.StatementDerivation
import Yolol.Proofs.Symbol

/-!
# What was read is what the tree says
-/

namespace Yolol.Parse

/-! ## Operators -/

/-- A binary operator is one token, or two of which the second is an equals sign. -/
theorem operator?_kinds {tier : Tier} {first : Token.Kind} {second : Option Token.Kind}
    {op : Operator} {more : Nat} (h : tier.operator? first second = some (op, more)) :
    (op.kinds = [first] ∧ more = 0) ∨
      (op.kinds = [first, .equal] ∧ second = some .equal ∧ more = 1) := by
  simp only [Tier.operator?] at h
  split at h
  case h_3 | h_4 =>
    split at h
    · next hsecond =>
      cases h
      exact .inr ⟨rfl, hsecond, rfl⟩
    · cases h
  case h_5 | h_6 =>
    split at h
    · next hsecond =>
      cases h
      exact .inr ⟨rfl, hsecond, rfl⟩
    · cases h
      exact .inl ⟨rfl, rfl⟩
  case h_12 => cases h
  all_goals
    cases h
    exact .inl ⟨rfl, rfl⟩

/-- The tokens of a binary operator stand for its symbols. -/
theorem operator?_symbols {tier : Tier} {t : Token} {ts : List Token} {op : Operator} {more : Nat}
    (h : tier.operator? t.kind (kindAt ts) = some (op, more)) :
    Spells (t :: ts) op.symbols (ts.drop more) := by
  rcases operator?_kinds h with ⟨hkinds, rfl⟩ | ⟨hkinds, hsecond, rfl⟩
  · exact ⟨[t], rfl, Operator.map_symbol (by simp [hkinds])⟩
  · obtain ⟨u, us, rfl, hequal⟩ := kindAt_eq_some hsecond
    exact ⟨[t, u], rfl, Operator.map_symbol (by simp [hkinds, hequal])⟩

theorem leadingOperator?_kinds {kind : Token.Kind} {op : Operator}
    (h : leadingOperator? kind = some op) : op.kinds = [kind] ∧ op.isTrailing = false := by
  cases kind <;> cases h <;> exact ⟨rfl, rfl⟩

theorem compoundAssignment?_kinds {kind : Token.Kind} {op : Operator}
    (h : compoundAssignment? kind = some op) : op.kinds = [kind, .equal] := by
  cases kind <;> cases h <;> rfl

/-! ## Leaves -/

theorem identifierOf_symbol {t : Token} {id : Identifier} (hkind : t.kind = .identifier)
    (h : identifierOf t = .ok id) : t.symbol = .text .identifier id.source := by
  unfold identifierOf at h
  split at h
  · next text htext =>
    cases h
    simp [Token.symbol, hkind, htext]
  · cases h

theorem numberOf_symbol {t : Token} {n : Number} (hkind : t.kind = .number)
    (h : numberOf t = .ok n) : t.symbol = .number (some n) := by
  simp [Token.symbol, hkind, h, Except.toOption]

theorem textOf_eq {role : Node.Role} {make : String → Node} {t : Token} (h : t.misfit = none) :
    textOf role make t = make (t.text.getD "") := by
  rw [textOf, h]
  cases t.text <;> rfl

theorem step?_symbols {a b c t : Token} {op : Operator} (h : step? a b c = some (op, t)) :
    t.kind = .identifier ∧
      [a.symbol, b.symbol, c.symbol] =
        if op.isTrailing then t.symbol :: op.symbols else op.symbols ++ [t.symbol] := by
  simp only [step?] at h
  split at h
  case h_1 ha hb hc | h_2 ha hb hc =>
    cases h
    simp [ha, Operator.isTrailing, Operator.symbols, Operator.kinds,
      Token.symbol_eq_mark hb rfl, Token.symbol_eq_mark hc rfl]
  case h_3 ha hb hc | h_4 ha hb hc =>
    cases h
    simp [hc, Operator.isTrailing, Operator.symbols, Operator.kinds,
      Token.symbol_eq_mark ha rfl, Token.symbol_eq_mark hb rfl]
  case h_5 => cases h

/-! ## Expressions -/

/-- The symbols that a rule has read before it starts. -/
def Rule.seen : Rule → List Symbol
  | .extend _ left => left.symbols
  | .factorials first => first.symbols
  | _ => []

/-- A rule reads the symbols of what it finds, without those that had been read before. -/
theorem Derives.spells {rule : Rule} {ts rest : List Token} {e : Node}
    (h : Derives rule ts e rest) (hfit : ∀ t ∈ ts, t.misfit = none) :
    ∃ symbols, Spells ts symbols rest ∧ e.symbols = rule.seen ++ symbols := by
  induction h with
  | chain _ _ ihfirst ihmore =>
    obtain ⟨as, has, hleft⟩ := ihfirst hfit
    obtain ⟨bs, hbs, he⟩ := ihmore fun t ht => hfit t (has.mem ht)
    refine ⟨as ++ bs, has.append hbs, ?_⟩
    simp [he, Rule.seen, hleft]
  | operandChain _ _ ih => exact ih hfit
  | operandPower _ _ ih => exact ih hfit
  | extendStop => exact ⟨[], .nil, by simp [Rule.seen]⟩
  | extendStep hoperator _ _ ihoperand ihnext =>
    have hop := operator?_symbols hoperator
    obtain ⟨as, has, hright⟩ := ihoperand fun t ht => hfit t (hop.mem ht)
    obtain ⟨bs, hbs, he⟩ := ihnext fun t ht => hfit t (hop.mem (has.mem ht))
    refine ⟨_, hop.append (has.append hbs), ?_⟩
    simp [he, Rule.seen, Node.symbols, hright]
  | powerStop _ _ ih => exact ih hfit
  | @powerStep ts base t mid _ _ _ hcaret _ ihfirst ihnext =>
    obtain ⟨as, has, hbase⟩ := ihfirst hfit
    have hop : Spells (t :: mid) Operator.pow.symbols mid :=
      ⟨[t], rfl, Operator.map_symbol (by simp [hcaret, Operator.kinds])⟩
    obtain ⟨bs, hbs, hexponent⟩ := ihnext fun t ht => hfit t (has.mem (hop.mem ht))
    refine ⟨_, has.append (hop.append hbs), ?_⟩
    simp [Node.symbols, hbase, hexponent, Rule.seen]
  | repeated _ _ ihfirst ihmore =>
    obtain ⟨as, has, hfirst⟩ := ihfirst hfit
    obtain ⟨bs, hbs, he⟩ := ihmore fun t ht => hfit t (has.mem ht)
    refine ⟨as ++ bs, has.append hbs, ?_⟩
    simp [he, Rule.seen, hfirst]
  | factorialsStop => exact ⟨[], .nil, by simp [Rule.seen]⟩
  | @factorialsStep first t ts _ _ hexclam _ ih =>
    have hop : Spells (t :: ts) Operator.factorial.symbols ts :=
      ⟨[t], rfl, Operator.map_symbol (by simpa [Operator.kinds] using hexclam.1)⟩
    obtain ⟨as, has, he⟩ := ih fun t ht => hfit t (hop.mem ht)
    refine ⟨_, hop.append has, ?_⟩
    simp [he, Rule.seen, Node.symbols, Operator.isTrailing]
  | unaryAtom _ ih => exact ih hfit
  | @unaryLeading t ts op _ _ hoperator _ _ ih =>
    obtain ⟨hkinds, htrailing⟩ := leadingOperator?_kinds hoperator
    have hop : Spells (t :: ts) op.symbols ts :=
      ⟨[t], rfl, Operator.map_symbol (by simp [hkinds])⟩
    obtain ⟨as, has, he⟩ := ih fun t ht => hfit t (hop.mem ht)
    refine ⟨_, hop.append has, ?_⟩
    simp [he, Rule.seen, Node.symbols, htrailing]
  | @atomStep a b c t _ _ _ hstep hname =>
    obtain ⟨hkind, hsymbols⟩ := step?_symbols hstep
    refine ⟨_, ⟨[a, b, c], rfl, rfl⟩, ?_⟩
    simp only [List.map_cons, List.map_nil, hsymbols, identifierOf_symbol hkind hname,
      Node.symbols, Rule.seen, List.nil_append, List.singleton_append]
  | atomSingle _ _ ih => exact ih hfit
  | @string t _ hkind =>
    refine ⟨_, .cons rfl .nil, ?_⟩
    rw [textOf_eq (hfit t List.mem_cons_self)]
    simp [Node.symbols, Token.symbol, hkind, Rule.seen]
  | number hkind hvalue => exact ⟨_, .cons (numberOf_symbol hkind hvalue) .nil, rfl⟩
  | identifier hkind hname => exact ⟨_, .cons (identifierOf_symbol hkind hname) .nil, rfl⟩
  | group hopening _ hclosing ih =>
    obtain ⟨as, has, hinner⟩ := ih fun t ht => hfit t (List.mem_cons_of_mem _ ht)
    have hopen := Token.symbol_eq_mark hopening rfl
    have hclose := Token.symbol_eq_mark hclosing rfl
    refine ⟨_, .cons hopen (has.append (.cons hclose .nil)), ?_⟩
    simp [Node.symbols, hinner, Rule.seen]

/-! ## Tokens of expressions -/

/-- A kind of token that expressions are made of. -/
def isInner : Token.Kind → Bool
  | .newline | .comment | .gotoWord | .ifWord | .thenWord | .elseWord | .endWord => false
  | _ => true

theorem isInner_of_mem_kinds (op : Operator) : ∀ kind ∈ op.kinds, isInner kind = true := by
  cases op <;> decide

/-- Only tokens of expressions stand in `ts` in front of `rest`. -/
def Passes (ts rest : List Token) : Prop :=
  ∃ used, ts = used ++ rest ∧ ∀ t ∈ used, isInner t.kind = true

namespace Passes

variable {ts mid rest : List Token}

theorem refl : Passes ts ts := ⟨[], rfl, by simp⟩

theorem cons {t : Token} (ht : isInner t.kind = true) (h : Passes ts rest) :
    Passes (t :: ts) rest := by
  obtain ⟨used, rfl, hused⟩ := h
  exact ⟨t :: used, rfl, List.forall_mem_cons.mpr ⟨ht, hused⟩⟩

theorem trans (h : Passes ts mid) (h' : Passes mid rest) : Passes ts rest := by
  obtain ⟨used, rfl, hused⟩ := h
  obtain ⟨used', rfl, hused'⟩ := h'
  exact ⟨used ++ used', by simp, List.forall_mem_append.mpr ⟨hused, hused'⟩⟩

theorem suffix (h : Passes ts rest) : rest <:+ ts := by
  obtain ⟨used, rfl, -⟩ := h
  exact List.suffix_append used rest

/-- The tokens that spell an operator are passed. -/
theorem of_spells {op : Operator} (h : Spells ts op.symbols rest) : Passes ts rest := by
  obtain ⟨used, rfl, hused⟩ := h
  refine ⟨used, rfl, fun t ht => isInner_of_mem_kinds op t.kind ?_⟩
  have hmem : t.symbol ∈ op.symbols := hused ▸ List.mem_map_of_mem ht
  obtain ⟨kind, hkind, hsymbol⟩ := List.mem_map.mp hmem
  rw [← t.kind_symbol, ← hsymbol]
  exact hkind

end Passes

/-- A rule reads nothing but tokens of expressions. -/
theorem Derives.passes {rule : Rule} {ts rest : List Token} {e : Node}
    (h : Derives rule ts e rest) : Passes ts rest := by
  induction h with
  | chain _ _ ihfirst ihmore => exact ihfirst.trans ihmore
  | operandChain _ _ ih => exact ih
  | operandPower _ _ ih => exact ih
  | extendStop => exact .refl
  | extendStep hoperator _ _ ihoperand ihnext =>
    exact (Passes.of_spells (operator?_symbols hoperator)).trans (ihoperand.trans ihnext)
  | powerStop _ _ ih => exact ih
  | powerStep _ hcaret _ ihfirst ihnext =>
    exact ihfirst.trans (ihnext.cons (by rw [hcaret]; rfl))
  | repeated _ _ ihfirst ihmore => exact ihfirst.trans ihmore
  | factorialsStop => exact .refl
  | @factorialsStep _ t _ _ _ hexclam _ ih =>
    have hkind : t.kind = .exclam := Option.some.inj hexclam.1
    exact ih.cons (by rw [hkind]; rfl)
  | unaryAtom _ ih => exact ih
  | unaryLeading hoperator _ _ ih =>
    obtain ⟨hkinds, -⟩ := leadingOperator?_kinds hoperator
    exact ih.cons (isInner_of_mem_kinds _ _ (hkinds ▸ List.mem_singleton_self _))
  | atomStep hstep =>
    simp only [step?] at hstep
    split at hstep
    case h_1 ha hb hc | h_2 ha hb hc | h_3 ha hb hc | h_4 ha hb hc =>
      exact .cons (by rw [ha]; rfl) (.cons (by rw [hb]; rfl) (.cons (by rw [hc]; rfl) .refl))
    case h_5 => cases hstep
  | atomSingle _ _ ih => exact ih
  | string hkind => exact .cons (by rw [hkind]; rfl) .refl
  | number hkind => exact .cons (by rw [hkind]; rfl) .refl
  | identifier hkind => exact .cons (by rw [hkind]; rfl) .refl
  | group hopening _ hclosing ih =>
    exact .cons (by rw [hopening]; rfl) (ih.trans (.cons (by rw [hclosing]; rfl) .refl))

theorem Derives.suffix {rule : Rule} {ts rest : List Token} {e : Node}
    (h : Derives rule ts e rest) : rest <:+ ts :=
  h.passes.suffix

theorem Passes.inner {ts rest : List Token} {as : List Symbol} (h : Passes ts rest)
    (hspells : Spells ts as rest) : ∀ a ∈ as, isInner a.kind = true := by
  obtain ⟨used, rfl, hused⟩ := h
  obtain ⟨used', heq, rfl⟩ := hspells
  obtain rfl := List.append_cancel_right heq
  intro a ha
  obtain ⟨t, ht, rfl⟩ := List.mem_map.mp ha
  rw [t.kind_symbol]
  exact hused t ht

/-- An expression is read as its symbols. There is at least one, and none of them could
    end or divide a statement. -/
theorem Derives.spells_expression {ts rest : List Token} {e : Node}
    (h : Derives (.chain .conjunction) ts e rest) (hfit : ∀ t ∈ ts, t.misfit = none) :
    Spells ts e.symbols rest ∧ e.symbols ≠ [] ∧ ∀ a ∈ e.symbols, isInner a.kind = true := by
  obtain ⟨as, has, he⟩ := h.spells hfit
  obtain rfl : e.symbols = as := by simpa [Rule.seen] using he
  refine ⟨has, ?_, h.passes.inner has⟩
  intro hempty
  obtain ⟨hfewer, -⟩ := h.expression
  obtain ⟨used, rfl, hused⟩ := has
  rw [hempty] at hused
  simp [List.map_eq_nil_iff.mp hused] at hfewer

theorem not_mem_of_inner {as : List Symbol} {kind : Token.Kind}
    (h : ∀ a ∈ as, isInner a.kind = true) (hkind : isInner kind = false) : .mark kind ∉ as :=
  fun hmem => by simpa [Symbol.kind, hkind] using h _ hmem

theorem settled_of_inner {as : List Symbol} (hne : as ≠ [])
    (h : ∀ a ∈ as, isInner a.kind = true) : Settled as := by
  refine ⟨as.getLast hne, List.getLast?_eq_some_getLast hne, fun helse => ?_⟩
  exact not_mem_of_inner h rfl (helse ▸ List.getLast_mem hne)

theorem not_mem_operator_symbols (op : Operator) {kind : Token.Kind}
    (hkind : isInner kind = false) : .mark kind ∉ op.symbols := by
  intro hmem
  have hmem : kind ∈ op.kinds := by simpa [Operator.symbols] using hmem
  simp [isInner_of_mem_kinds op kind hmem] at hkind

/-! ## Statements -/

/-- The symbols that a phase has read before it starts. -/
def Phase.seen : Phase → List Symbol
  | .statement => []
  | .branches condition body otherwise =>
    .mark .ifWord :: (condition.symbols ++ .mark .thenWord ::
      (Node.symbolsAll body ++ Node.elsePart (otherwise.getD [])))

/-- The `else` behind which nothing has been read yet. -/
def Phase.pending : Phase → List Symbol
  | .branches _ _ (some []) => [.mark .elseWord]
  | _ => []

/-- The tokens between the variable and the value of an assignment stand for its operator. -/
theorem assignmentAt?_symbols {a : Token} {ts : List Token} {op : Operator} {more : Nat}
    (h : assignmentAt? (a :: ts) = some (op, more)) :
    a.kind = .identifier ∧ Spells ts op.symbols (ts.drop more) := by
  obtain ⟨_, b, c, us, heq, hkind, hform⟩ := assignmentAt?_eq_some h
  cases heq
  refine ⟨hkind, ?_⟩
  rcases hform with ⟨hequal, -, rfl, rfl⟩ | ⟨hequal, hcompound, rfl⟩
  · exact ⟨[b], rfl, Operator.map_symbol (by simp [hequal, Operator.kinds])⟩
  · have hkinds := compoundAssignment?_kinds hcompound
    exact ⟨[b, c], rfl, Operator.map_symbol (by simp [hkinds, hequal])⟩

/-- Statements of which the last is an expression are settled, and nothing is dropped from
    their front. -/
theorem Derives.settled {ts rest : List Token} {e : Node}
    (h : Derives (.chain .conjunction) ts e rest) (hfit : ∀ t ∈ ts, t.misfit = none) :
    Settled e.symbols ∧ dropEmptyElse e.symbols = e.symbols := by
  obtain ⟨-, hne, hinner⟩ := h.spells_expression hfit
  refine ⟨settled_of_inner hne hinner, ?_⟩
  simpa [dropEmptyElse] using dropEmptyElse_of_not_mem (not_mem_of_inner hinner rfl) []

/-- No statement starts with `end`. -/
theorem Composes.head?_ne_end {ts rest : List Token} {s : Node} {as : List Symbol}
    (h : Composes .statement ts s rest) (has : Spells ts as rest) (hsettled : Settled as)
    (bs : List Symbol) : (as ++ bs).head? ≠ some (.mark .endWord) := by
  obtain ⟨kind, hkind, hopens⟩ := h.opens
  obtain ⟨used, rfl, rfl⟩ := has
  cases used with
  | nil =>
    obtain ⟨_, hlast, _⟩ := hsettled
    cases hlast
  | cons t used =>
    obtain rfl : t.kind = kind := Option.some.inj hkind
    intro hend
    have hsymbol : t.symbol = .mark .endWord := by simpa using hend
    have hend : t.kind = .endWord := by rw [← t.kind_symbol, hsymbol]; rfl
    simp [hend, isOpening] at hopens

theorem Composes.spells {phase : Phase} {ts rest : List Token} {s : Node}
    (h : Composes phase ts s rest) (hfit : ∀ t ∈ ts, t.misfit = none) :
    ∃ symbols, Spells ts symbols rest ∧ Settled symbols ∧
      s.symbols = phase.seen ++ dropEmptyElse (phase.pending ++ symbols) := by
  induction h with
  | @comment t _ hkind =>
    refine ⟨[t.symbol], .cons rfl .nil, ⟨_, rfl, ?_⟩, ?_⟩
    · simp [Token.symbol, hkind]
    · rw [textOf_eq (hfit t List.mem_cons_self)]
      simp [Node.symbols, Token.symbol, hkind, Phase.seen, Phase.pending, dropEmptyElse]
  | goto hkind htarget =>
    have hfit' := fun t ht => hfit t (List.mem_cons_of_mem _ ht)
    obtain ⟨hspells, -, hinner⟩ := htarget.spells_expression hfit'
    obtain ⟨hsettled, hdrop⟩ := htarget.settled hfit'
    refine ⟨_, .cons (Token.symbol_eq_mark hkind rfl) hspells, hsettled.append [_], ?_⟩
    simp [Node.symbols, Phase.seen, Phase.pending, dropEmptyElse, hdrop]
  | @assignment _ _ op _ _ _ _ hspelled hname hvalue =>
    obtain ⟨hkind, hop⟩ := assignmentAt?_symbols hspelled
    have hfit' := fun t ht => hfit t (List.mem_cons_of_mem _ (hop.mem ht))
    obtain ⟨hspells, -, -⟩ := hvalue.spells_expression hfit'
    obtain ⟨hsettled, hdrop⟩ := hvalue.settled hfit'
    have htarget := identifierOf_symbol hkind hname
    refine ⟨_, .cons htarget (hop.append hspells), (hsettled.append _).append [_], ?_⟩
    have hmark : .mark .elseWord ∉ op.symbols := not_mem_operator_symbols op rfl
    simp [Node.symbols, Phase.seen, Phase.pending, dropEmptyElse, dropEmptyElse_of_not_mem hmark,
      hdrop]
  | evaluation _ hvalue =>
    obtain ⟨hspells, -, -⟩ := hvalue.spells_expression hfit
    obtain ⟨hsettled, hdrop⟩ := hvalue.settled hfit
    exact ⟨_, hspells, hsettled, by simp [Node.symbols, Phase.seen, Phase.pending, hdrop]⟩
  | conditional hkind htest hthen _ ih =>
    have hfit' := fun t ht => hfit t (List.mem_cons_of_mem _ ht)
    obtain ⟨hspells, -, hinner⟩ := htest.spells_expression hfit'
    obtain ⟨as, has, hsettled, hs⟩ := ih fun t ht =>
      hfit' t (hspells.mem (List.mem_cons_of_mem _ ht))
    refine ⟨_, .cons (Token.symbol_eq_mark hkind rfl)
      (hspells.append (.cons (Token.symbol_eq_mark hthen rfl) has)),
      ((hsettled.append [_]).append _).append [_], ?_⟩
    simp [hs, Phase.seen, Phase.pending, Node.symbolsAll, Node.elsePart, dropEmptyElse,
      dropEmptyElse_of_not_mem (not_mem_of_inner hinner rfl)]
  | @close condition body otherwise t ts hkind =>
    refine ⟨_, .cons (Token.symbol_eq_mark hkind rfl) .nil, ⟨_, rfl, by simp⟩, ?_⟩
    rcases otherwise with _ | _ | _ <;>
      simp [Phase.seen, Phase.pending, Node.elsePart, dropEmptyElse]
  | turn hkind _ ih =>
    obtain ⟨as, has, hsettled, hs⟩ := ih fun t ht => hfit t (List.mem_cons_of_mem _ ht)
    refine ⟨_, .cons (Token.symbol_eq_mark hkind rfl) has, hsettled.append [_], ?_⟩
    simpa [Phase.seen, Phase.pending, Node.elsePart] using hs
  | bodyStep hfirst _ ihfirst ihnext =>
    obtain ⟨as, has, hsettled, hs⟩ := ihfirst hfit
    obtain ⟨bs, hbs, hsettled', hr⟩ := ihnext fun t ht => hfit t (has.mem ht)
    refine ⟨_, has.append hbs, hsettled'.append as, ?_⟩
    simp [hr, hs, Phase.seen, Phase.pending, Node.symbolsAll, Node.elsePart,
      hsettled.dropEmptyElse_append]
  | @otherwiseStep condition body otherwise ts s mid r rest hfirst _ ihfirst ihnext =>
    obtain ⟨as, has, hsettled, hs⟩ := ihfirst hfit
    obtain ⟨bs, hbs, hsettled', hr⟩ := ihnext fun t ht => hfit t (has.mem ht)
    refine ⟨_, has.append hbs, hsettled'.append as, ?_⟩
    cases otherwise with
    | nil =>
      have hhead : (as ++ bs).head? ≠ some (.mark .endWord) := hfirst.head?_ne_end has hsettled bs
      simp [hr, hs, Phase.seen, Phase.pending, Node.symbolsAll, Node.elsePart,
        dropEmptyElse_cons _ (.inr hhead), hsettled.dropEmptyElse_append]
    | cons =>
      simp [hr, hs, Phase.seen, Phase.pending, Node.symbolsAll, Node.elsePart,
        hsettled.dropEmptyElse_append]

/-! ## Programs -/

/-- What may stand behind the last of the lines: nothing if it is not empty, and a
    newline if there is one. -/
def Closing (lines : List Node) (final : List Symbol) : Prop :=
  (final = [] ∧ lines.getLast? ≠ some (.line [])) ∨ (final = [.mark .newline] ∧ lines ≠ [])

theorem programFrom_spells {lines soFar : List Node} {ts : List Token} {node : Node}
    (h : (programFrom lines soFar ts).result = .ok node) (hfit : ∀ t ∈ ts, t.misfit = none) :
    (programFrom lines soFar ts).rest = [] ∧
      ∃ further final, node = .program (lines ++ further) ∧ Closing further final ∧
        Node.symbolsAll soFar ++ dropEmptyElse (ts.map Token.symbol) =
          Node.symbolLines further ++ final := by
  fun_induction programFrom lines soFar ts with
  | case1 lines soFar hempty =>
    obtain rfl : soFar = [] := by simpa using hempty
    cases h
    exact ⟨rfl, [], [], by simp, .inl ⟨rfl, by simp⟩, rfl⟩
  | case2 lines soFar hempty =>
    have hne : soFar ≠ [] := by simpa using hempty
    cases h
    exact ⟨rfl, [.line soFar], [], rfl, .inl ⟨rfl, by simpa using hne⟩,
      by simp [dropEmptyElse, Node.symbolLines, Node.symbols]⟩
  | case3 lines soFar t ts hkind ih =>
    obtain ⟨hrest, further, final, rfl, hclosing, hsymbols⟩ :=
      ih h fun t ht => hfit t (List.mem_cons_of_mem _ ht)
    have hnewline : t.symbol = .mark .newline := Token.symbol_eq_mark hkind rfl
    -- The newline separates two lines, unless the one that it ends is the last.
    cases further with
    | nil =>
      obtain rfl : final = [] := by
        rcases hclosing with ⟨rfl, -⟩ | ⟨-, hne⟩
        · rfl
        · exact absurd rfl hne
      refine ⟨hrest, [.line soFar], [.mark .newline], by simp, .inr ⟨rfl, by simp⟩, ?_⟩
      have hsymbols : dropEmptyElse (ts.map Token.symbol) = [] := hsymbols
      simp [hnewline, dropEmptyElse, hsymbols, Node.symbolLines, Node.symbols]
    | cons line further =>
      refine ⟨hrest, .line soFar :: line :: further, final, by simp, ?_, ?_⟩
      · simpa [Closing] using hclosing
      · have hsymbols : dropEmptyElse (ts.map Token.symbol) =
          Node.symbolLines (line :: further) ++ final := hsymbols
        simp [hnewline, dropEmptyElse, hsymbols, Node.symbolLines, Node.symbols]
  | case4 => simp at h
  | case5 lines soFar t ts _ next s rest _ hfound ih =>
    have hcomposes := composes_of_statement hfound
    obtain ⟨as, ⟨used, hts, rfl⟩, hsettled, hs⟩ := hcomposes.spells hfit
    obtain ⟨hrest, further, final, hnode, hclosing, hsymbols⟩ := ih h fun t ht =>
      hfit t (hts ▸ List.mem_append_right used ht)
    refine ⟨hrest, further, final, hnode, hclosing, ?_⟩
    rw [← hsymbols, hts, List.map_append, hsettled.dropEmptyElse_append]
    simp [hs, Phase.seen, Phase.pending, Node.symbolsAll]

/-- A program that was read from lexed tokens is written with these tokens and no others, in
    the same order, but for `else` words without statements. -/
theorem program_symbols {ts : List Token} {node : Node} (hlex : ∀ t ∈ ts, t.isLexical = true)
    (h : (program ts).result = .ok node) :
    (program ts).rest = [] ∧
      ∃ lines final, node = .program lines ∧ Closing lines final ∧
        dropEmptyElse (ts.map Token.symbol) = node.symbols ++ final := by
  obtain ⟨hrest, lines, final, rfl, hclosing, hsymbols⟩ :=
    programFrom_spells h fun t ht => Token.misfit_eq_none (hlex t ht)
  exact ⟨hrest, lines, final, rfl, hclosing, hsymbols⟩

/-- The tokens of `if a then else end`, and a newline behind them. -/
def emptyElse : List Token :=
  [{ kind := .ifWord }, { kind := .identifier, text := some "a" }, { kind := .thenWord },
    { kind := .elseWord }, { kind := .endWord }, { kind := .newline }]

theorem program_emptyElse : (program emptyElse).result =
    .ok (.program [.line [.ifThen (.value (.identifier ⟨"a", false⟩)) []]]) := by
  simp [emptyElse, program, programFrom, statement, branches, expression, chain, operand, power,
    repeated, unary, atom, step?, single, identifierOf, Identifier.ofSource, Step.ofToken,
    Step.map, factorials, Step.widen, extend, Tier.operator?, Reading.prepend, Node.conditional,
    Traced.map]

/-- The `else` is dropped, and the newline is the final one. -/
theorem program_symbols_emptyElse :
    (∀ t ∈ emptyElse, t.isLexical = true) ∧ (program emptyElse).rest = [] ∧
      ∃ lines final, Node.program [.line [.ifThen (.value (.identifier ⟨"a", false⟩)) []]] =
          .program lines ∧ Closing lines final ∧
        dropEmptyElse (emptyElse.map Token.symbol) = (Node.program lines).symbols ++ final := by
  have hlex : ∀ t ∈ emptyElse, t.isLexical = true := by decide
  obtain ⟨hrest, lines, final, hnode, hclosing, hsymbols⟩ :=
    program_symbols hlex program_emptyElse
  exact ⟨hlex, hrest, lines, final, hnode, hclosing, hnode ▸ hsymbols⟩

end Yolol.Parse

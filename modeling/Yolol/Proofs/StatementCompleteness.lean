-- SUMMARY: Every grammatical line is what the parser finds in the tokens that write it.
import Yolol.Proofs.Completeness
import Yolol.Proofs.NumberText

/-!
# Every grammatical line is found

A statement ends where nothing follows that an expression could go on with. In a line
without clashes this is so behind every statement, whatever the next one is.
-/

namespace Yolol

/-! ## Writing tokens -/

/-- A token that stands for the symbol. -/
def Symbol.token : Symbol → Token
  | .mark kind => { kind }
  | .text kind content => { kind, text := some content }
  | .number value => { kind := .number, text := value.map Number.toLiteral }

/-- A symbol that some token stands for. -/
def Symbol.isProper : Symbol → Bool
  | .mark kind => !kind.carriesText
  | .text kind _ => kind == .identifier || kind == .string || kind == .comment
  | .number value => value.isSome

theorem Symbol.symbol_token {a : Symbol} (h : a.isProper = true) :
    a.token.symbol = a ∧ a.token.isIntact = true := by
  match a with
  | .mark kind => cases kind <;> first | exact ⟨rfl, rfl⟩ | cases h
  | .text kind content => cases kind <;> first | exact ⟨rfl, rfl⟩ | cases h
  | .number (some n) =>
    simp [Symbol.token, Token.symbol, Token.isIntact, Parse.numberOf, Number.ofLiteral_toLiteral,
      Except.toOption]

theorem Operator.proper_symbols (op : Operator) : ∀ a ∈ op.symbols, a.isProper = true := by
  cases op <;> decide

namespace Node

mutual
theorem proper_symbols (n : Node) : ∀ a ∈ n.symbols, a.isProper = true := by
  match n with
  | .missing | .misfit .. => simp [symbols]
  | .number _ | .text _ | .identifier _ | .comment _ => simp [symbols, Symbol.isProper]
  | .value a | .evaluation a => simpa [symbols] using proper_symbols a
  | .group a | .goto a =>
    have ha := proper_symbols a
    simp_all [symbols, Symbol.isProper, Token.Kind.carriesText, or_imp]
  | .unary op a =>
    have ha := proper_symbols a
    have hop := op.proper_symbols
    unfold symbols
    split <;> exact List.forall_mem_append.mpr ⟨by assumption, by assumption⟩
  | .binary op a b =>
    exact List.forall_mem_append.mpr ⟨proper_symbols a,
      List.forall_mem_append.mpr ⟨op.proper_symbols, proper_symbols b⟩⟩
  | .assignment a op b =>
    exact List.forall_mem_append.mpr ⟨proper_symbols a,
      List.forall_mem_append.mpr ⟨op.proper_symbols, proper_symbols b⟩⟩
  | .ifThen c body =>
    have hc := proper_symbols c
    have hbody := proper_symbolsAll body
    simp_all [symbols, Symbol.isProper, Token.Kind.carriesText, or_imp]
  | .ifElse c body otherwise =>
    have hc := proper_symbols c
    have hbody := proper_symbolsAll body
    have hotherwise := proper_symbolsAll otherwise
    simp_all [symbols, Symbol.isProper, Token.Kind.carriesText, or_imp]
  | .line as => simpa [symbols] using proper_symbolsAll as
  | .program as => simpa [symbols] using proper_symbolLines as

theorem proper_symbolsAll (as : List Node) : ∀ a ∈ symbolsAll as, a.isProper = true := by
  match as with
  | [] => simp [symbolsAll]
  | a :: as => exact List.forall_mem_append.mpr ⟨proper_symbols a, proper_symbolsAll as⟩

theorem proper_symbolLines (as : List Node) : ∀ a ∈ symbolLines as, a.isProper = true := by
  match as with
  | [] => simp [symbolLines]
  | [a] => simpa [symbolLines] using proper_symbols a
  | a :: b :: as =>
    rw [symbolLines]
    · exact List.forall_mem_append.mpr ⟨proper_symbols a,
        List.forall_mem_cons.mpr ⟨rfl, proper_symbolLines (b :: as)⟩⟩
    · simp
end

/-- Tokens that the tree can be written with. -/
def tokens (n : Node) : List Token := n.symbols.map Symbol.token

theorem writes_tokens (n : Node) : Writes n.tokens n.symbols := by
  have hproper := fun a ha => Symbol.symbol_token (n.proper_symbols a ha)
  refine ⟨?_, ?_⟩
  · rw [tokens, List.map_map]
    exact (List.map_congr_left fun a ha => (hproper a ha).1).trans (List.map_id' _)
  · intro t ht
    obtain ⟨a, ha, rfl⟩ := List.mem_map.mp ht
    exact (hproper a ha).2

end Node

namespace Parse

/-! ## Ends of statements -/

/-- A kind of token that an expression can go on with. -/
def isJoint : Token.Kind → Bool
  | .plus | .minus | .star | .slash | .percent | .caret | .exclam | .equal | .langle | .rangle
  | .andWord | .orWord => true
  | _ => false

/-- No expression in front goes on. -/
def Ends (rest : List Token) : Prop := ∀ kind, kindAt rest = some kind → isJoint kind = false

theorem Ends.nil : Ends [] := fun kind h => by cases h

theorem Ends.cons {t : Token} (h : isJoint t.kind = false) (ts : List Token) : Ends (t :: ts) := by
  intro kind hkind
  cases hkind
  exact h

theorem Ends.joint {rest : List Token} (h : Ends rest) : joint rest = 0 := by
  cases rest with
  | nil => rfl
  | cons t ts =>
    have hkind := h t.kind rfl
    rw [Parse.joint]
    split <;> simp_all [isJoint]

theorem Ends.follow {rest : List Token} (h : Ends rest) (e : Node) : Follow e rest := by
  refine .of_kindAt ?_ ?_ ?_ <;> intro hkind <;> cases h _ hkind

theorem Ends.not_assigns {rest : List Token} (h : Ends rest) : ¬ Assigns rest := by
  rintro (⟨hequal, -⟩ | ⟨-, hcompound⟩)
  · cases h _ hequal
  · obtain ⟨op, hop⟩ := Option.isSome_iff_exists.mp hcompound
    obtain ⟨kind, hkind, hop⟩ := Option.bind_eq_some_iff.mp hop
    have hend := h kind hkind
    cases kind <;> simp_all [isJoint, compoundAssignment?]

/-- A well-built expression is derived from the tokens that write it. -/
theorem derives_of_wellBuilt {e : Node} {used rest : List Token} (h : e.WellBuilt)
    (hused : Writes used e.symbols) (hends : Ends rest) :
    Derives (.chain .conjunction) (used ++ rest) e rest :=
  (readable_of_wellBuilt h hused).expression h.one_le_level (hends.follow e) hends.joint

/-- A statement without a sign in front ends the one before. -/
theorem ends_of_statement {s : Node} {used : List Token} (h : s.WellPhrased)
    (hsign : s.startsWithSign = false) (hused : Writes used s.symbols) (rest : List Token) :
    Ends (used ++ rest) := by
  have hfirst : ∃ kind, s.firstKind = some kind ∧ isJoint kind = false := by
    cases h with
    | comment => exact ⟨.comment, rfl, rfl⟩
    | goto => exact ⟨.gotoWord, rfl, rfl⟩
    | assignment => exact ⟨.identifier, rfl, rfl⟩
    | ifThen => exact ⟨.ifWord, rfl, rfl⟩
    | ifElse => exact ⟨.ifWord, rfl, rfl⟩
    | @evaluation e he =>
      obtain ⟨kind, hfirst, hopening⟩ := he.opens
      have hfirst : (Node.evaluation e).firstKind = some kind := hfirst
      refine ⟨kind, hfirst, ?_⟩
      rw [Node.startsWithSign, hfirst] at hsign
      cases kind <;> simp_all [isOpening, isJoint]
  obtain ⟨kind, hfirst, hkind⟩ := hfirst
  intro kind' hkind'
  rw [hused.kindAt hfirst] at hkind'
  cases hkind'
  exact hkind

/-! ## Statements one after the other -/

/-- The front of `ts` is one statement after the other, and `rest` is left. -/
inductive Sequence : List Node → List Token → List Token → Prop where
  | nil {ts} : Sequence [] ts ts
  | cons {s ss ts mid rest} (first : Composes .statement ts s mid)
      (next : Sequence ss mid rest) : Sequence (s :: ss) ts rest

namespace Sequence

variable {ss body otherwise : List Node} {condition r : Node} {ts mid rest : List Token}

theorem composes_body (h : Sequence ss ts mid)
    (hnext : Composes (.branches condition (body ++ ss) none) mid r rest) :
    Composes (.branches condition body none) ts r rest := by
  induction h generalizing body with
  | nil => simpa using hnext
  | cons hfirst _ ih => exact .bodyStep hfirst (ih (by simpa using hnext))

theorem composes_otherwise (h : Sequence ss ts mid)
    (hnext : Composes (.branches condition body (some (otherwise ++ ss))) mid r rest) :
    Composes (.branches condition body (some otherwise)) ts r rest := by
  induction h generalizing otherwise with
  | nil => simpa using hnext
  | cons hfirst _ ih => exact .otherwiseStep hfirst (ih (by simpa using hnext))

/-- A line goes on behind the statements. -/
theorem lineFrom (h : Sequence ss ts rest) (soFar : List Node) :
    (lineFrom soFar ts).result = (lineFrom (soFar ++ ss) rest).result ∧
      (lineFrom soFar ts).rest = (lineFrom (soFar ++ ss) rest).rest := by
  induction h generalizing soFar with
  | nil => simp
  | @cons s ss ts mid rest hfirst _ ih =>
    obtain ⟨kind, hkind, hopens⟩ := hfirst.opens
    obtain ⟨t, ts, rfl, rfl⟩ := kindAt_eq_some hkind
    have hnewline : t.kind ≠ .newline := fun h => by simp [h, isOpening] at hopens
    obtain ⟨fewer, hfound⟩ := Step.eq_found hfirst.outcome
    rw [Parse.lineFrom, if_neg hnewline]
    simpa [hfound, Reading.prepend] using ih (soFar ++ [s])

end Sequence

/-- Well-phrased statements without clashes follow each other in the tokens that write them,
    if each of them is composed of its own. -/
theorem sequence_of_separated {ss : List Node} {used rest : List Token}
    (hss : ∀ s ∈ ss, s.WellPhrased) (hseparated : Node.separated ss = true)
    (hused : Writes used (Node.symbolsAll ss)) (hends : Ends rest)
    (hcomposes : ∀ s ∈ ss, ∀ us vs, Writes us s.symbols → (s.isOpenEnded = true → Ends vs) →
      Composes .statement (us ++ vs) s vs) : Sequence ss (used ++ rest) rest := by
  induction ss generalizing used with
  | nil =>
    obtain rfl := hused.eq_nil
    exact .nil
  | cons s ss ih =>
    obtain ⟨us, vs, rfl, hus, hvs⟩ := hused.append_inv
    obtain ⟨hs, hss⟩ := List.forall_mem_cons.mp hss
    obtain ⟨hfirst, hcomposes⟩ := List.forall_mem_cons.mp hcomposes
    rw [List.append_assoc]
    cases ss with
    | nil =>
      obtain rfl := hvs.eq_nil
      exact .cons (hfirst us rest hus fun _ => hends) .nil
    | cons s' ss =>
      obtain ⟨hclear, hseparated⟩ : (s.isOpenEnded = true → s'.startsWithSign = false) ∧
          Node.separated (s' :: ss) = true := by
        simpa [Node.separated, Decidable.imp_iff_not_or] using hseparated
      refine .cons (hfirst us _ hus fun hopen => ?_) (ih hss hseparated hvs hcomposes)
      obtain ⟨us', vs', rfl, hus', -⟩ := hvs.append_inv
      rw [List.append_assoc]
      exact ends_of_statement (hss s' List.mem_cons_self) (hclear hopen) hus' (vs' ++ rest)

/-! ## Statements -/

/-- The tokens between the variable and the value of an assignment are read as its operator. -/
theorem assignmentAt?_of_kinds {op : Operator} {a : Token} {os more : List Token}
    (hop : op.isAssignment = true) (ha : a.kind = .identifier)
    (hos : os.map (·.kind) = op.kinds) {kind : Token.Kind} (hmore : kindAt more = some kind)
    (hequal : kind ≠ .equal) : assignmentAt? (a :: (os ++ more)) = some (op, os.length) := by
  obtain ⟨c, more, rfl, rfl⟩ := kindAt_eq_some hmore
  cases op <;> simp only [Operator.isAssignment, Bool.false_eq_true] at hop
  case assign =>
    obtain ⟨b, rfl, hb⟩ := List.map_eq_singleton_iff.mp hos
    simp [assignmentAt?, assignment?, ha, hb, hequal]
  all_goals
    obtain ⟨b, os, rfl, hb, hos⟩ := List.map_eq_cons_iff.mp hos
    obtain ⟨c, rfl, hc⟩ := List.map_eq_singleton_iff.mp hos
    simp [assignmentAt?, assignment?, ha, hb, hc, compoundAssignment?]

theorem composes_assignment {id : Identifier} {op : Operator} {e : Node} {used rest : List Token}
    (hname : ':' ∉ id.name.toList) (hop : op.isAssignment = true) (he : e.WellBuilt)
    (hused : Writes used (Node.assignment (.identifier id) op e).symbols) (hends : Ends rest) :
    Composes .statement (used ++ rest) (.assignment (.identifier id) op e) rest := by
  simp only [Node.symbols, List.singleton_append] at hused
  obtain ⟨a, us, rfl, hsymbol, hintact, hus⟩ := hused.cons_inv
  obtain ⟨os, vs, rfl, hos, hvs⟩ := hus.append_inv
  obtain ⟨kind, hfirst, hopening⟩ := he.opens
  have hspelled := assignmentAt?_of_kinds hop (kind_of_symbol hsymbol) hos.operator
    (hvs.kindAt hfirst rest) (by rintro rfl; cases hopening)
  rw [List.cons_append, List.append_assoc]
  refine .assignment hspelled (identifierOf_eq hsymbol hintact hname) ?_
  simpa using derives_of_wellBuilt he hvs hends

theorem composes_evaluation {e : Node} {used rest : List Token} (he : e.WellBuilt)
    (hused : Writes used e.symbols) (hends : Ends rest) :
    Composes .statement (used ++ rest) (.evaluation e) rest := by
  refine .evaluation ?_ (derives_of_wellBuilt he hused hends)
  cases hspelled : assignmentAt? (used ++ rest) with
  | none => rfl
  | some spelled =>
    obtain ⟨hname, hassigns⟩ := assigns_of_assignmentAt? hspelled
    obtain ⟨kind, hfirst, -⟩ := he.opens
    obtain ⟨t, us, rfl, -⟩ := kindAt_eq_some (hused.kindAt_self hfirst)
    exact absurd hassigns (not_assigns_of_wellBuilt he hused hname hends.not_assigns)

/-- A conditional is composed of its condition and of what is composed behind it. -/
theorem composes_conditional {c s : Node} {used rest : List Token} {as : List Symbol}
    (hc : c.WellBuilt)
    (hused : Writes used (.mark .ifWord :: (c.symbols ++ .mark .thenWord :: as)))
    (hbranches : ∀ us, Writes us as → Composes (.branches c [] none) (us ++ rest) s rest) :
    Composes .statement (used ++ rest) s rest := by
  obtain ⟨t, us, rfl, hif, -, hus⟩ := hused.cons_inv
  obtain ⟨cs, us, rfl, hcs, hus⟩ := hus.append_inv
  obtain ⟨u, us, rfl, hthen, -, hus⟩ := hus.cons_inv
  have hthen : u.kind = .thenWord := kind_of_symbol hthen
  have htest := derives_of_wellBuilt hc hcs (.cons (by rw [hthen]; rfl) (us ++ rest))
  simpa using Composes.conditional (kind_of_symbol hif) htest hthen (hbranches us hus)

/-- A well-phrased statement is composed of the tokens that write it. -/
theorem composes_of_wellPhrased {s : Node} (h : s.WellPhrased) (used rest : List Token)
    (hused : Writes used s.symbols) (hends : s.isOpenEnded = true → Ends rest) :
    Composes .statement (used ++ rest) s rest := by
  induction h generalizing used rest with
  | @comment text =>
    obtain ⟨t, rfl, hsymbol, hintact⟩ := hused.single_inv
    have htext : textOf .comment .comment t = .comment text := by
      simp only [textOf, text_of_intact hsymbol rfl hintact]
    exact htext ▸ .comment (kind_of_symbol hsymbol)
  | goto he =>
    obtain ⟨t, us, rfl, hsymbol, -, hus⟩ := hused.cons_inv
    exact .goto (kind_of_symbol hsymbol) (derives_of_wellBuilt he hus (hends rfl))
  | assignment hname hop he => exact composes_assignment hname hop he hused (hends rfl)
  | evaluation he => exact composes_evaluation he hused (hends rfl)
  | @ifThen c body hc hbody hapart ih =>
    apply composes_conditional hc hused
    intro us hus
    obtain ⟨bs, us, rfl, hbs, hus⟩ := hus.append_inv
    obtain ⟨close, rfl, hclose⟩ := hus.mark_inv
    have hsequence := sequence_of_separated hbody hapart hbs
      (.cons (by rw [hclose]; rfl) rest) ih
    have hbranches : Composes (.branches c [] none) (bs ++ close :: rest) (.ifThen c body) rest :=
      hsequence.composes_body (.close hclose)
    simpa using hbranches
  | @ifElse c body otherwise hc hbody hapart hnonempty hotherwise hotherApart ihbody ihotherwise =>
    apply composes_conditional hc hused
    intro us hus
    obtain ⟨bs, us, rfl, hbs, hus⟩ := hus.append_inv
    obtain ⟨v, us, rfl, helse, -, hus⟩ := hus.cons_inv
    obtain ⟨os, us, rfl, hos, hus⟩ := hus.append_inv
    obtain ⟨close, rfl, hclose⟩ := hus.mark_inv
    have helse : v.kind = .elseWord := kind_of_symbol helse
    have hfirst := sequence_of_separated hbody hapart hbs
      (.cons (by rw [helse]; rfl) (os ++ close :: rest)) ihbody
    have hsecond := sequence_of_separated hotherwise hotherApart hos
      (.cons (by rw [hclose]; rfl) rest) ihotherwise
    have hconditional : Node.conditional c body otherwise = .ifElse c body otherwise := by
      simp [Node.conditional, hnonempty]
    have hclosed : Composes (.branches c body (some otherwise)) (close :: rest)
        (.ifElse c body otherwise) rest := hconditional ▸ .close hclose
    have hbranches : Composes (.branches c [] none) (bs ++ v :: (os ++ close :: rest))
        (.ifElse c body otherwise) rest :=
      hfirst.composes_body (.turn helse (hsecond.composes_otherwise hclosed))
    simpa using hbranches

/-! ## Lines -/

theorem sequence_of_line {statements : List Node} {used rest : List Token}
    (h : (Node.line statements).Grammatical) (hused : Writes used (Node.line statements).symbols)
    (hends : Ends rest) : Sequence statements (used ++ rest) rest := by
  have hphrased := h.wellPhrased
  exact sequence_of_separated hphrased h.apart hused hends fun s hs =>
    composes_of_wellPhrased (hphrased s hs)

/-- A grammatical line is found in the tokens that write it. -/
theorem line_of_writes {statements : List Node} {used : List Token}
    (h : (Node.line statements).Grammatical) (hused : Writes used (Node.line statements).symbols) :
    (line used).result = .ok (.line statements) ∧ (line used).rest = [] := by
  obtain ⟨hresult, hrest⟩ := (sequence_of_line h hused .nil).lineFrom []
  rw [List.append_nil] at hresult hrest
  rw [line, hresult, hrest]
  simp [Parse.lineFrom]

/-- Every grammatical line is found in all tokens that write it, up to the end or up to a
    newline, and some tokens write it. -/
theorem line_of_grammatical {statements : List Node} (h : (Node.line statements).Grammatical) :
    Writes (Node.line statements).tokens (Node.line statements).symbols ∧
      ∀ used, Writes used (Node.line statements).symbols →
        ((line used).result = .ok (.line statements) ∧ (line used).rest = []) ∧
          ∀ newline more, newline.kind = .newline →
            (line (used ++ newline :: more)).result = .ok (.line statements) ∧
              (line (used ++ newline :: more)).rest = more := by
  refine ⟨Node.writes_tokens _, fun used hused => ⟨line_of_writes h hused, ?_⟩⟩
  intro newline more hnewline
  have hends : Ends (newline :: more) := .cons (by rw [hnewline]; rfl) more
  obtain ⟨hresult, hrest⟩ := (sequence_of_line h hused hends).lineFrom []
  rw [line, hresult, hrest]
  simp [Parse.lineFrom, hnewline]

/-- The statements of `a = - -1 if a then :b++ else goto a! end`. -/
def mixedStatements : List Node :=
  let a : Node := .value (.identifier ⟨"a", false⟩)
  [.assignment (.identifier ⟨"a", false⟩) .assign
      (.unary .negate (.unary .negate (.value (.number .one)))),
    .ifElse a [.evaluation (.unary .postIncrement (.value (.identifier ⟨"b", true⟩)))]
      [.goto (.unary .factorial a)]]

/-- Two signs in front of a number are no step. -/
theorem line_of_grammatical_mixedStatements :
    (Node.line mixedStatements).Grammatical ∧
      (line (Node.line mixedStatements).tokens).result = .ok (.line mixedStatements) ∧
        (line (Node.line mixedStatements).tokens).rest = [] := by
  have hgrammatical : (Node.line mixedStatements).Grammatical := by decide
  exact ⟨hgrammatical, ((line_of_grammatical hgrammatical).2 _ (Node.writes_tokens _)).1⟩

end Parse

end Yolol

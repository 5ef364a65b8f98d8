-- SUMMARY: A line that is written as text and read again is the same line.
import Yolol.Proofs.ParsedTree
import Yolol.Proofs.StatementCompleteness

/-!
# Reading a line again

The source text of a tree is scanned as the tokens that write the tree: texts keep
their shape, and between two words there is always a space or a sign. Lines that come
from source text are grammatical, so these tokens are read as the line again.
-/

namespace Yolol

open Token

/-! ## Texts that are scanned as tokens -/

/-- The text is scanned as the tokens, whatever follows that does not make it longer. -/
def Prints (cs : List Char) (ts : List Token) : Prop :=
  ∀ rest us, Parted rest → Lexes rest us → Lexes (cs ++ rest) (ts ++ us)

theorem parted_cons {c : Char} (hword : isWordChar c = false) (hpoint : c ≠ '.') (cs : List Char) :
    Parted (c :: cs) := by
  intro d hd
  cases hd
  exact ⟨hword, hpoint⟩

theorem Prints.lexes {cs : List Char} {ts : List Token} (h : Prints cs ts) : Lexes cs ts := by
  have hend : Parted [] := fun c hc => by cases hc
  simpa using h [] [] hend .nil

theorem prints_keyword {w : String} {kind : Kind} (hw : isWord w.toList = true)
    (hkind : reserved? w.toList = some kind) : Prints w.toList [{ kind }] :=
  fun _ _ hrest h => .keyword hw hkind hrest h

/-- The text of an operator with a space behind it. -/
theorem lexes_operator (op : Operator) {rest : List Char} {us : List Token}
    (h : Lexes rest us) :
    Lexes (op.symbol.toList ++ ' ' :: rest) (op.symbols.map Symbol.token ++ us) := by
  have hspace : Parted (' ' :: rest) := parted_cons rfl (by decide) rest
  have hone {c : Char} {kind : Kind} (hc : punctuation? c = some kind) :
      Lexes (c :: ' ' :: rest) ({ kind } :: us) := .mark hc (.inr (by simp)) h.space
  have htwo {c d : Char} {kind kind' : Kind} (hc : punctuation? c = some kind)
      (hd : punctuation? d = some kind') (hslash : d ≠ '/') :
      Lexes (c :: d :: ' ' :: rest) ({ kind } :: { kind := kind' } :: us) :=
    .mark hc (.inr (by simpa using hslash)) (hone hd)
  have hword {w : String} {kind : Kind} (hw : isWord w.toList = true)
      (hkind : reserved? w.toList = some kind) : Lexes (w.toList ++ ' ' :: rest) ({ kind } :: us) :=
    .keyword hw hkind hspace h.space
  cases op <;>
    first
    | exact hone rfl
    | exact htwo rfl rfl (by decide)
    | exact hword (by decide) (by decide)

/-- The text of an operator that stands right beside its operand. -/
theorem lexes_sign {op : Operator} (hop : op = .negate ∨ op = .factorial ∨ op.isStep = true)
    {rest : List Char} {us : List Token} (h : Lexes rest us) :
    Lexes (op.symbol.toList ++ rest) (op.symbols.map Symbol.token ++ us) := by
  have hmark {c : Char} {kind : Kind} {cs : List Char} {ts : List Token}
      (hc : punctuation? c = some kind) (hslash : c ≠ '/') (hnext : Lexes cs ts) :
      Lexes (c :: cs) ({ kind } :: ts) := .mark hc (.inl hslash) hnext
  cases op <;> simp only [Operator.isStep, reduceCtorEq, Bool.false_eq_true, or_self] at hop
  case negate | factorial => exact hmark rfl (by decide) h
  all_goals exact hmark rfl (by decide) (hmark rfl (by decide) h)

/-! ## Expressions -/

namespace Node

theorem prints_leaf_number {n : Number} (h : 0 ≤ n.raw) :
    Prints n.toLiteral.toList (Node.number n).tokens := by
  intro rest us hrest hlexes
  rw [Number.toLiteral, String.toList_ofList]
  exact .number (Number.isNumberText_toChars h) hrest hlexes

theorem prints_leaf_identifier {id : Identifier} (h : (Node.identifier id).isScannable = true) :
    Prints id.source.toList (Node.identifier id).tokens := by
  intro rest us hrest hlexes
  have hname : isNameText id.source.toList = true := (Bool.and_eq_true_iff.mp h).1
  have htoken := Lexes.name hname hrest hlexes
  rwa [String.ofList_toList] at htoken

theorem prints_binary {op : Operator} {a b : Node} (ha : Prints a.source.toList a.tokens)
    (hb : Prints b.source.toList b.tokens) :
    Prints (Node.binary op a b).source.toList (Node.binary op a b).tokens := by
  intro rest us hrest hlexes
  have hright := lexes_operator op (hb rest us hrest hlexes)
  have hspace : Parted (' ' :: (op.symbol.toList ++ ' ' :: (b.source.toList ++ rest))) :=
    parted_cons rfl (by decide) _
  simpa [source, tokens, symbols] using ha _ _ hspace hright.space

theorem prints_trailing {op : Operator} {a : Node} (hop : op.isTrailing = true)
    (ha : Prints a.source.toList a.tokens) :
    Prints (Node.unary op a).source.toList (Node.unary op a).tokens := by
  intro rest us hrest hlexes
  have hsign : op = .negate ∨ op = .factorial ∨ op.isStep = true := by
    cases op <;> first | exact .inr (.inl rfl) | exact .inr (.inr rfl) | cases hop
  have hparted : Parted (op.symbol.toList ++ rest) := by
    cases op <;> first | exact parted_cons rfl (by decide) _ | cases hop
  simpa [source, tokens, symbols, hop] using ha _ _ hparted (lexes_sign hsign hlexes)

theorem prints_leading {op : Operator} {a : Node} (htrailing : op.isTrailing = false)
    (hsign : op.isWord = false → op = .negate ∨ op = .factorial ∨ op.isStep = true)
    (ha : Prints a.source.toList a.tokens) :
    Prints (Node.unary op a).source.toList (Node.unary op a).tokens := by
  intro rest us hrest hlexes
  have hoperand := ha rest us hrest hlexes
  cases hword : op.isWord with
  | true => simpa [source, tokens, symbols, htrailing, hword] using lexes_operator op hoperand
  | false =>
    simpa [source, tokens, symbols, htrailing, hword] using lexes_sign (hsign hword) hoperand

/-- A well-built expression with the texts of tokens is scanned as these tokens. -/
theorem prints_of_wellBuilt {e : Node} (h : e.WellBuilt) (hscan : e.every isScannable = true) :
    Prints e.source.toList e.tokens := by
  induction h with
  | number hnonneg =>
    rw [source, source]
    exact prints_leaf_number hnonneg
  | @text s =>
    intro rest us hrest hlexes
    have hs : isQuotable s.toList = true := by simpa [every, isScannable] using hscan
    have htoken := Lexes.string hs hlexes
    simpa [source, tokens, symbols, Symbol.token] using htoken
  | @identifier id =>
    rw [source, source]
    exact prints_leaf_identifier (by simpa [every, isScannable] using hscan)
  | @group inner _ ih =>
    intro rest us hrest hlexes
    have hclose : Lexes (')' :: rest) ({ kind := .rparen } :: us) :=
      .mark rfl (.inl (by decide)) hlexes
    have hinner := ih (by simpa [every, isScannable] using hscan) _ _
      (parted_cons rfl (by decide) rest) hclose
    have hopen : Lexes ('(' :: (inner.source.toList ++ ')' :: rest))
        ({ kind := .lparen } :: (inner.tokens ++ { kind := .rparen } :: us)) :=
      .mark rfl (.inl (by decide)) hinner
    simpa [source, tokens, symbols, Symbol.token] using hopen
  | @step op id hop _ =>
    have hname : Prints (Node.value (.identifier id)).source.toList
        (Node.value (.identifier id)).tokens := by
      rw [source, source]
      exact prints_leaf_identifier (by simpa [every, isScannable] using hscan)
    cases htrailing : op.isTrailing with
    | true => exact prints_trailing htrailing hname
    | false => exact prints_leading htrailing (fun _ => .inr (.inr hop)) hname
  | factorial _ _ ih =>
    exact prints_trailing rfl (ih (by simpa [every, isScannable] using hscan))
  | @leading op a hop _ _ _ ih =>
    have hsign : op.isWord = false → op = .negate ∨ op = .factorial ∨ op.isStep = true := by
      intro hword
      cases op <;>
        first
        | exact .inl rfl
        | exact absurd hop (by decide)
        | exact absurd hword (by decide)
    exact prints_leading (isTrailing_of_leading hop).1 hsign
      (ih (by simpa [every, isScannable] using hscan))
  | power _ _ _ _ iha ihb =>
    obtain ⟨ha, hb⟩ : _ ∧ _ := by simpa [every, isScannable] using hscan
    exact prints_binary (iha ha) (ihb hb)
  | operation _ _ _ _ _ _ iha ihb =>
    obtain ⟨ha, hb⟩ : _ ∧ _ := by simpa [every, isScannable] using hscan
    exact prints_binary (iha ha) (ihb hb)

/-! ## Statements -/

/-- Texts with spaces between them, of which the last may go on. -/
theorem lexes_intercalate {items : List (String × List Token)}
    (hitems : ∀ item ∈ items, Prints item.1.toList item.2) {last : String} {rest : List Char}
    {ts : List Token} (hlast : Lexes (last.toList ++ rest) ts) :
    Lexes ((" ".intercalate (items.map (·.1) ++ [last])).toList ++ rest)
      (items.flatMap (·.2) ++ ts) := by
  induction items with
  | nil => simpa using hlast
  | cons item items ih =>
    obtain ⟨hitem, hitems⟩ := List.forall_mem_cons.mp hitems
    have hnext := (ih hitems).space
    have hlexes := hitem _ _ (parted_cons rfl (by decide) _) hnext
    rw [List.map_cons, List.cons_append, String.intercalate_cons_of_ne_nil (by simp)]
    simpa using hlexes

/-- The text and the tokens of a node. -/
def item (n : Node) : String × List Token := (n.source, n.tokens)

theorem sources_eq_map (as : List Node) : sources as = as.map source := by
  induction as with
  | nil => rfl
  | cons a as ih => rw [sources, ih, List.map_cons]

theorem tokens_symbolsAll (as : List Node) :
    (symbolsAll as).map Symbol.token = as.flatMap fun a => a.symbols.map Symbol.token := by
  induction as with
  | nil => rfl
  | cons a as ih => rw [symbolsAll, List.map_append, ih, List.flatMap_cons]

/-- A conditional is scanned part by part, from its first word to its last. -/
theorem prints_conditional {c : Node} (hc : Prints c.source.toList c.tokens)
    {items : List (String × List Token)} (hitems : ∀ item ∈ items, Prints item.1.toList item.2) :
    Prints (" ".intercalate ("if" :: c.source :: "then" :: (items.map (·.1) ++ ["end"]))).toList
      ({ kind := .ifWord } :: (c.tokens ++ { kind := .thenWord } ::
        (items.flatMap (·.2) ++ [{ kind := .endWord }]))) := by
  intro rest us hrest hlexes
  have hall : ∀ item ∈ ("if", [{ kind := .ifWord }]) :: c.item ::
      ("then", [{ kind := .thenWord }]) :: items, Prints item.1.toList item.2 := by
    refine List.forall_mem_cons.mpr ⟨prints_keyword (by decide) (by decide), ?_⟩
    refine List.forall_mem_cons.mpr ⟨hc, ?_⟩
    exact List.forall_mem_cons.mpr ⟨prints_keyword (by decide) (by decide), hitems⟩
  have hend : Lexes ("end".toList ++ rest) ({ kind := .endWord } :: us) :=
    .keyword (by decide) (by decide) hrest hlexes
  simpa [item] using lexes_intercalate hall hend

/-- A statement other than a comment is scanned as its tokens. -/
theorem prints_of_wellPhrased {s : Node} (h : s.WellPhrased) (hscan : s.every isScannable = true)
    (hcomment : s.isComment = false) : Prints s.source.toList s.tokens := by
  induction h with
  | comment => cases hcomment
  | @goto e he =>
    intro rest us hrest hlexes
    have hscanned : e.every isScannable = true := by simpa [every, isScannable] using hscan
    have hvalue := prints_of_wellBuilt he hscanned rest us hrest hlexes
    have hword : Prints "goto".toList [{ kind := .gotoWord }] :=
      prints_keyword (by decide) (by decide)
    have hall := hword _ _ (parted_cons rfl (by decide) _) hvalue.space
    simpa [source, tokens, symbols, Symbol.token] using hall
  | @assignment id op e _ _ he =>
    intro rest us hrest hlexes
    obtain ⟨hid, hscanned⟩ :
        (Node.identifier id).isScannable = true ∧ e.every isScannable = true := by
      simpa [every, isScannable] using hscan
    have hvalue := prints_of_wellBuilt he hscanned rest us hrest hlexes
    have hname := prints_leaf_identifier hid _ _ (parted_cons rfl (by decide) _)
      (lexes_operator op hvalue).space
    simpa [source, tokens, symbols, Symbol.token] using hname
  | evaluation he =>
    have hvalue := prints_of_wellBuilt he (by simpa [every, isScannable] using hscan)
    unfold source
    exact hvalue
  | @ifThen c body hc hbody _ ih =>
    intro rest us hrest hlexes
    obtain ⟨hcomments, hcondition, hstatements⟩ : (∀ s ∈ body, s.isComment = false) ∧
        c.every isScannable = true ∧ ∀ s ∈ body, s.every isScannable = true := by
      simpa [every, isScannable] using hscan
    have hitems : ∀ x ∈ body.map item, Prints x.1.toList x.2 :=
      List.forall_mem_map.mpr fun s hs => ih s hs (hstatements s hs) (hcomments s hs)
    have hall := prints_conditional (prints_of_wellBuilt hc hcondition) hitems rest us hrest hlexes
    simpa [source, sources_eq_map, tokens, symbols, tokens_symbolsAll, item, Symbol.token,
      Function.comp_def, List.flatMap_map] using hall
  | @ifElse c body otherwise hc hbody _ _ hotherwise _ ihbody ihotherwise =>
    intro rest us hrest hlexes
    obtain ⟨⟨hcomments, hcomments'⟩, hcondition, hstatements, hstatements'⟩ :
        ((∀ s ∈ body, s.isComment = false) ∧ ∀ s ∈ otherwise, s.isComment = false) ∧
          c.every isScannable = true ∧ (∀ s ∈ body, s.every isScannable = true) ∧
            ∀ s ∈ otherwise, s.every isScannable = true := by
      simpa [every, isScannable] using hscan
    have hitems : ∀ x ∈ body.map item ++ ("else", [{ kind := .elseWord }]) :: otherwise.map item,
        Prints x.1.toList x.2 := by
      refine List.forall_mem_append.mpr ⟨List.forall_mem_map.mpr fun s hs =>
        ihbody s hs (hstatements s hs) (hcomments s hs), ?_⟩
      refine List.forall_mem_cons.mpr ⟨prints_keyword (by decide) (by decide), ?_⟩
      exact List.forall_mem_map.mpr fun s hs =>
        ihotherwise s hs (hstatements' s hs) (hcomments' s hs)
    have hall := prints_conditional (prints_of_wellBuilt hc hcondition) hitems rest us hrest hlexes
    simpa [source, sources_eq_map, tokens, symbols, tokens_symbolsAll, item, Symbol.token,
      Function.comp_def, List.flatMap_map] using hall

/-! ## Lines -/

theorem lexes_comment {s : String} (h : isSingleLine s.toList = true) :
    Lexes (Node.comment s).source.toList (Node.comment s).tokens := by
  have hcomment := Lexes.comment h (.inl rfl) .nil
  simpa [source, tokens, symbols, Symbol.token] using hcomment

/-- The last statement of a line may be a comment. -/
theorem lexes_of_wellPhrased {s : Node} (h : s.WellPhrased) (hscan : s.every isScannable = true) :
    Lexes s.source.toList s.tokens := by
  cases hcomment : s.isComment with
  | false => exact (prints_of_wellPhrased h hscan hcomment).lexes
  | true =>
    cases h with
    | comment => exact lexes_comment (by simpa [every, isScannable] using hscan)
    | _ => cases hcomment

/-- The source text of a grammatical line is scanned as its tokens. -/
theorem lexes_line {statements : List Node} (h : (Node.line statements).Grammatical)
    (hscan : (Node.line statements).every isScannable = true) :
    Lexes (Node.line statements).source.toList (Node.line statements).tokens := by
  obtain ⟨hcomments, hstatements⟩ : (∀ s ∈ statements.dropLast, s.isComment = false) ∧
      ∀ s ∈ statements, s.every isScannable = true := by
    simpa [every, isScannable] using hscan
  have hphrased := h.wellPhrased
  rcases List.eq_nil_or_concat statements with rfl | ⟨init, last, rfl⟩
  · exact .nil
  · rw [List.concat_eq_append] at *
    rw [List.dropLast_concat] at hcomments
    obtain ⟨hinit, hlast⟩ := List.forall_mem_append.mp hphrased
    obtain ⟨hinitScan, hlastScan⟩ := List.forall_mem_append.mp hstatements
    have hitems : ∀ x ∈ init.map item, Prints x.1.toList x.2 :=
      List.forall_mem_map.mpr fun s hs =>
        prints_of_wellPhrased (hinit s hs) (hinitScan s hs) (hcomments s hs)
    have hend : Lexes (last.source.toList ++ []) last.tokens := by
      rw [List.append_nil]
      exact lexes_of_wellPhrased (hlast last (by simp)) (hlastScan last (by simp))
    have hall := lexes_intercalate hitems hend
    simpa [source, sources_eq_map, tokens, symbols, tokens_symbolsAll, item, symbolsAll,
      Function.comp_def, List.flatMap_map] using hall

end Node

namespace Parse

/-- Places do not matter for what tokens write. -/
theorem writes_of_bare {ts us : List Token} {as : List Symbol} (h : Writes us as)
    (hbare : ts.map bare = us) : Writes ts as := by
  subst hbare
  refine ⟨?_, fun t ht => ?_⟩
  · rw [← h.symbols, List.map_map]
    rfl
  · exact h.intact t.bare (List.mem_map_of_mem ht)

theorem line_of_lineOfSource {text : String} {node : Node} (h : lineOfSource text = .ok node) :
    ∃ ts, scan text = .ok ts ∧ (line ts).result = .ok node := ofSource_eq_ok h

/-- A line that was read from source text is read again from its own source text, and
    nothing is left over. -/
theorem line_readBack {text : String} {node : Node} (h : lineOfSource text = .ok node) :
    ∃ ts, scan node.source = .ok ts ∧ (line ts).result = .ok node ∧ (line ts).rest = [] := by
  obtain ⟨us, hscan, hline⟩ := line_of_lineOfSource h
  obtain ⟨hlex, hcomments⟩ := lexical_of_scan hscan
  obtain ⟨statements, rfl, hgrammatical, hscannable⟩ := grammatical_of_line hline ⟨hlex, hcomments⟩
  obtain ⟨ts, hscan', hbare⟩ := scan_of_lexes (Node.lexes_line hgrammatical hscannable)
  have hwrites := writes_of_bare (Node.writes_tokens _) hbare
  exact ⟨ts, hscan', line_of_writes hgrammatical hwrites⟩

/-- The line of `:a=-1.50 if --a then b++ else end //z`. -/
def sampleLine : Node :=
  .line
    [.assignment (.identifier ⟨"a", true⟩) .assign
        (.unary .negate (.value (.number (.ofRaw 15000)))),
      .ifThen (.unary .preDecrement (.value (.identifier ⟨"a", false⟩)))
        [.evaluation (.unary .postIncrement (.value (.identifier ⟨"b", false⟩)))],
      .comment "z"]

theorem lineOfSource_sampleLine :
    lineOfSource ":a=-1.50 if --a then b++ else end //z\n7" = .ok sampleLine := by
  have hread : (lineOfSource ":a=-1.50 if --a then b++ else end //z\n7").toOption =
      some sampleLine := by decide +kernel
  cases hline : lineOfSource ":a=-1.50 if --a then b++ else end //z\n7" with
  | error f => simp [hline, Except.toOption] at hread
  | ok node => simpa [hline, Except.toOption] using hread

theorem line_readBack_sampleLine :
    sampleLine.source = ":a = -1.5 if --a then b++ end //z" ∧
      ∃ ts, scan sampleLine.source = .ok ts ∧ (line ts).result = .ok sampleLine ∧
        (line ts).rest = [] :=
  ⟨by decide +kernel, line_readBack lineOfSource_sampleLine⟩

end Parse

end Yolol

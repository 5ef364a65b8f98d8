-- SUMMARY: What tokens stand for, and the symbols that a tree is written with.
import Yolol.Parse.Expression

/-!
# Symbols

A symbol is what a token stands for, whatever its place and its spelling: a number
counts by its value, and the texts of names, strings and comments count as written.
Writing out the symbols of a tree in order is the inverse of parsing.
-/

namespace Yolol

/-- A name is written the way it was read. -/
@[simp] theorem Identifier.source_ofSource (text : String) :
    (Identifier.ofSource text).source = text := by
  unfold Identifier.ofSource
  split
  · next rest h =>
    apply String.toList_inj.mp
    simp [Identifier.source, h]
  · rfl

/-- What a token stands for. -/
inductive Symbol where
  /-- A token that its kind determines. -/
  | mark (kind : Token.Kind)
  /-- An identifier, a string or a comment. -/
  | text (kind : Token.Kind) (content : String)
  /-- A number; `none` if the text of the token denotes none. -/
  | number (value : Option Number)
  deriving DecidableEq

/-- What the token stands for. -/
def Token.symbol (t : Token) : Symbol :=
  match t.kind with
  | .number => .number (Parse.numberOf t).toOption
  | .identifier | .string | .comment => .text t.kind (t.text.getD "")
  | kind => .mark kind

/-- The kind of the tokens that stand for the symbol. -/
def Symbol.kind : Symbol → Token.Kind
  | .mark kind | .text kind _ => kind
  | .number _ => .number

@[simp] theorem Token.kind_symbol (t : Token) : t.symbol.kind = t.kind := by
  simp only [Token.symbol]
  split <;> simp_all [Symbol.kind]

/-- A kind whose tokens carry a text. -/
def Token.Kind.carriesText : Token.Kind → Bool
  | .number | .identifier | .string | .comment => true
  | _ => false

theorem Token.symbol_eq_mark {t : Token} {kind : Token.Kind} (hkind : t.kind = kind)
    (htext : kind.carriesText = false) : t.symbol = .mark kind := by
  subst hkind
  simp only [Token.symbol]
  split <;> simp_all [Token.Kind.carriesText]

/-- The tokens of `ts` in front of `rest` stand for the symbols. -/
def Spells (ts : List Token) (symbols : List Symbol) (rest : List Token) : Prop :=
  ∃ used, ts = used ++ rest ∧ used.map Token.symbol = symbols

namespace Spells

variable {ts mid rest : List Token} {as bs : List Symbol}

theorem nil : Spells ts [] ts := ⟨[], rfl, rfl⟩

theorem cons {t : Token} {a : Symbol} (ha : t.symbol = a) (h : Spells ts as rest) :
    Spells (t :: ts) (a :: as) rest := by
  obtain ⟨used, rfl, rfl⟩ := h
  exact ⟨t :: used, rfl, by simp [ha]⟩

theorem append (ha : Spells ts as mid) (hb : Spells mid bs rest) : Spells ts (as ++ bs) rest := by
  obtain ⟨used, rfl, rfl⟩ := ha
  obtain ⟨used', rfl, rfl⟩ := hb
  exact ⟨used ++ used', by simp, by simp⟩

theorem suffix (h : Spells ts as rest) : rest <:+ ts := by
  obtain ⟨used, rfl, -⟩ := h
  exact List.suffix_append used rest

theorem mem (h : Spells ts as rest) {t : Token} (ht : t ∈ rest) : t ∈ ts :=
  h.suffix.subset ht

end Spells

/-- The kinds of the tokens that spell an operator. -/
def Operator.kinds : Operator → List Token.Kind
  | .add => [.plus]
  | .sub => [.minus]
  | .mul => [.star]
  | .div => [.slash]
  | .mod => [.percent]
  | .pow => [.caret]
  | .equal => [.equal, .equal]
  | .notEqual => [.exclam, .equal]
  | .less => [.langle]
  | .lessEqual => [.langle, .equal]
  | .greater => [.rangle]
  | .greaterEqual => [.rangle, .equal]
  | .and => [.andWord]
  | .or => [.orWord]
  | .not => [.notWord]
  | .negate => [.minus]
  | .abs => [.absWord]
  | .sqrt => [.sqrtWord]
  | .sin => [.sinWord]
  | .cos => [.cosWord]
  | .tan => [.tanWord]
  | .arcsin => [.arcsinWord]
  | .arccos => [.arccosWord]
  | .arctan => [.arctanWord]
  | .factorial => [.exclam]
  | .preIncrement | .postIncrement => [.plus, .plus]
  | .preDecrement | .postDecrement => [.minus, .minus]
  | .assign => [.equal]
  | .addAssign => [.plus, .equal]
  | .subAssign => [.minus, .equal]
  | .mulAssign => [.star, .equal]
  | .divAssign => [.slash, .equal]
  | .modAssign => [.percent, .equal]

/-- The symbols that spell an operator. -/
def Operator.symbols (op : Operator) : List Symbol := op.kinds.map .mark

theorem Operator.kinds_carry_no_text (op : Operator) :
    ∀ kind ∈ op.kinds, kind.carriesText = false := by
  cases op <;> decide

/-- Tokens of the kinds that spell an operator stand for its symbols. -/
theorem Operator.map_symbol {op : Operator} {ts : List Token}
    (h : ts.map (·.kind) = op.kinds) : ts.map Token.symbol = op.symbols := by
  have hmark : ∀ t ∈ ts, t.symbol = .mark t.kind := fun t ht =>
    Token.symbol_eq_mark rfl (op.kinds_carry_no_text t.kind (h ▸ List.mem_map_of_mem ht))
  rw [Operator.symbols, ← h, List.map_map]
  exact List.map_congr_left hmark

namespace Node

mutual
/-- The symbols of a tree, from left to right. -/
def symbols : Node → List Symbol
  | .missing | .misfit .. => []
  | .number n => [.number (some n)]
  | .text s => [.text .string s]
  | .identifier id => [.text .identifier id.source]
  | .group a => .mark .lparen :: (a.symbols ++ [.mark .rparen])
  | .value a => a.symbols
  | .unary op a => if op.isTrailing then a.symbols ++ op.symbols else op.symbols ++ a.symbols
  | .binary op a b => a.symbols ++ (op.symbols ++ b.symbols)
  | .comment s => [.text .comment s]
  | .goto a => .mark .gotoWord :: a.symbols
  | .ifThen c body =>
    .mark .ifWord :: (c.symbols ++ .mark .thenWord :: (symbolsAll body ++ [.mark .endWord]))
  | .ifElse c body otherwise =>
    .mark .ifWord :: (c.symbols ++ .mark .thenWord :: (symbolsAll body ++
      .mark .elseWord :: (symbolsAll otherwise ++ [.mark .endWord])))
  | .assignment target op a => target.symbols ++ (op.symbols ++ a.symbols)
  | .evaluation a => a.symbols
  | .line statements => symbolsAll statements
  | .program lines => symbolLines lines

/-- The symbols of trees that follow each other. -/
def symbolsAll : List Node → List Symbol
  | [] => []
  | a :: as => a.symbols ++ symbolsAll as

/-- The symbols of lines, with a newline between each two. -/
def symbolLines : List Node → List Symbol
  | [] => []
  | [a] => a.symbols
  | a :: as => a.symbols ++ .mark .newline :: symbolLines as
end

@[simp] theorem symbolsAll_append (as bs : List Node) :
    symbolsAll (as ++ bs) = symbolsAll as ++ symbolsAll bs := by
  induction as with
  | nil => rfl
  | cons a as ih => simp [symbolsAll, ih]

/-- The `else` part of a conditional; none without statements. -/
def elsePart : List Node → List Symbol
  | [] => []
  | a :: as => .mark .elseWord :: symbolsAll (a :: as)

@[simp] theorem symbols_conditional (c : Node) (body otherwise : List Node) :
    (conditional c body otherwise).symbols =
      .mark .ifWord :: (c.symbols ++ .mark .thenWord :: (symbolsAll body ++
        (elsePart otherwise ++ [.mark .endWord]))) := by
  cases otherwise <;> simp [conditional, symbols, elsePart]

end Node

/-! ## Empty else parts -/

/-- Leave out every `else` that an `end` follows at once. -/
def dropEmptyElse : List Symbol → List Symbol
  | [] => []
  | a :: as =>
    if a = .mark .elseWord ∧ as.head? = some (.mark .endWord) then dropEmptyElse as
    else a :: dropEmptyElse as

theorem dropEmptyElse_cons {a : Symbol} (as : List Symbol)
    (h : a ≠ .mark .elseWord ∨ as.head? ≠ some (.mark .endWord)) :
    dropEmptyElse (a :: as) = a :: dropEmptyElse as := by
  rw [dropEmptyElse, if_neg]
  rintro ⟨ha, has⟩
  rcases h with h | h
  · exact h ha
  · exact h has

theorem dropEmptyElse_of_not_mem {as : List Symbol} (h : .mark .elseWord ∉ as) (bs : List Symbol) :
    dropEmptyElse (as ++ bs) = as ++ dropEmptyElse bs := by
  induction as with
  | nil => rfl
  | cons a as ih =>
    have ha : a ≠ .mark .elseWord := fun ha => h (ha ▸ List.mem_cons_self)
    have has : .mark .elseWord ∉ as := fun has => h (List.mem_cons_of_mem a has)
    rw [List.cons_append, dropEmptyElse_cons _ (.inl ha), ih has, List.cons_append]

/-- There is a last symbol, and it is no `else`. -/
def Settled (as : List Symbol) : Prop := ∃ a, as.getLast? = some a ∧ a ≠ .mark .elseWord

theorem Settled.append {bs : List Symbol} (h : Settled bs) (as : List Symbol) :
    Settled (as ++ bs) := by
  obtain ⟨b, hb, hne⟩ := h
  exact ⟨b, by simp [List.getLast?_append, hb], hne⟩

/-- Empty else parts do not reach over the end of settled symbols. -/
theorem Settled.dropEmptyElse_append {as : List Symbol} (h : Settled as) (bs : List Symbol) :
    dropEmptyElse (as ++ bs) = dropEmptyElse as ++ dropEmptyElse bs := by
  induction as with
  | nil => obtain ⟨_, h, _⟩ := h; cases h
  | cons a as ih =>
    cases as with
    | nil =>
      obtain ⟨b, hb, hne⟩ := h
      obtain rfl : a = b := by simpa using hb
      rw [List.singleton_append, dropEmptyElse_cons _ (.inl hne), dropEmptyElse_cons _ (.inl hne)]
      rfl
    | cons a' as =>
      have hsettled : Settled (a' :: as) := by simpa [Settled] using h
      have hfirst (cs : List Symbol) : dropEmptyElse (a :: a' :: cs) =
          if a = .mark .elseWord ∧ a' = .mark .endWord then dropEmptyElse (a' :: cs)
          else a :: dropEmptyElse (a' :: cs) := by
        rw [dropEmptyElse]
        simp
      have ih := ih hsettled
      rw [List.cons_append] at ih
      rw [List.cons_append, List.cons_append, hfirst, hfirst, ih]
      split <;> rfl

end Yolol

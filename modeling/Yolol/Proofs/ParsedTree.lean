-- SUMMARY: Lines that are read from source text are grammatical, and can be written as text.
import Yolol.Proofs.Grammatical
import Yolol.Proofs.NumberText
import Yolol.Proofs.Scanning
import Yolol.Proofs.Soundness

/-!
# The trees of source text

The parser takes an operator as part of what it is reading whenever it can. So what it
stops in front of cannot go on, and the trees that it builds have none of the clashes
that a tree could have. Their leaves have the texts of tokens, and a comment in them is
the last thing on its line.
-/

namespace Yolol

namespace Node

def isComment : Node → Bool
  | .comment _ => true
  | _ => false

/-- A leaf with the text of a token, or a node in which nothing follows a comment. -/
def isScannable : Node → Bool
  | .missing | .misfit .. => false
  | .number n => 0 ≤ n.raw
  | .text s => Token.isQuotable s.toList
  | .identifier id => Token.isNameText id.source.toList && !id.name.toList.contains ':'
  | .comment s => Token.isSingleLine s.toList
  | .ifThen _ body => body.all (!·.isComment)
  | .ifElse _ body otherwise => body.all (!·.isComment) && otherwise.all (!·.isComment)
  | .line as => as.dropLast.all (!·.isComment)
  | _ => true

mutual
theorem every_mono {p q : Node → Bool} (hpq : ∀ n, p n = true → q n = true) (n : Node)
    (h : n.every p = true) : n.every q = true := by
  match n with
  | .missing | .misfit .. | .number _ | .text _ | .identifier _ | .comment _ => exact hpq _ h
  | .group a | .value a | .unary _ a | .goto a | .evaluation a =>
    simp only [every, Bool.and_eq_true] at h ⊢
    exact ⟨hpq _ h.1, every_mono hpq a h.2⟩
  | .binary _ a b | .assignment a _ b =>
    simp only [every, Bool.and_eq_true] at h ⊢
    exact ⟨hpq _ h.1, every_mono hpq a h.2.1, every_mono hpq b h.2.2⟩
  | .ifThen c body =>
    simp only [every, Bool.and_eq_true] at h ⊢
    exact ⟨hpq _ h.1, every_mono hpq c h.2.1, everyAll_mono hpq body h.2.2⟩
  | .ifElse c body otherwise =>
    simp only [every, Bool.and_eq_true] at h ⊢
    exact ⟨hpq _ h.1, every_mono hpq c h.2.1, everyAll_mono hpq body h.2.2.1,
      everyAll_mono hpq otherwise h.2.2.2⟩
  | .line as | .program as =>
    simp only [every, Bool.and_eq_true] at h ⊢
    exact ⟨hpq _ h.1, everyAll_mono hpq as h.2⟩

theorem everyAll_mono {p q : Node → Bool} (hpq : ∀ n, p n = true → q n = true) (as : List Node)
    (h : everyAll p as = true) : everyAll q as = true := by
  match as with
  | [] => rfl
  | a :: as =>
    simp only [everyAll, Bool.and_eq_true] at h ⊢
    exact ⟨every_mono hpq a h.1, everyAll_mono hpq as h.2⟩
end

theorem isLegible_of_isScannable (n : Node) (h : n.isScannable = true) : n.isLegible = true := by
  cases n <;> simp_all [isScannable, isLegible]

end Node

namespace Parse

/-! ## Where a rule stops -/

/-- A rule goes on over the operators of its level and of all tighter ones, but over none
    looser than this. -/
def Rule.ceiling : Rule → Nat
  | .chain tier | .extend tier _ => tier.level
  | .operand tier => tier.level + 1
  | .power => 7
  | .repeated | .factorials _ => 8
  | .unary | .atom | .single => 9

/-- The operators behind `left` that a chain has not yet read are of its level at most. -/
def Rule.Descended : Rule → List Token → Prop
  | .extend tier _, ts => joint ts ≤ tier.level
  | _, _ => True

/-- A rule stops in front of an operator only if it is too loose for it. -/
theorem Derives.joint_lt {rule : Rule} {ts rest : List Token} {e : Node}
    (h : Derives rule ts e rest) (hdescended : rule.Descended ts) : joint rest < rule.ceiling := by
  induction h with
  | chain _ _ ihfirst ihmore => exact ihmore (Nat.le_of_lt_succ (ihfirst trivial))
  | operandChain hbelow _ ih =>
    have hjoint := ih trivial
    rw [Rule.ceiling, ← Tier.level_of_tighter hbelow]
    exact hjoint
  | operandPower hbelow _ ih =>
    have hjoint := ih trivial
    rw [Rule.ceiling, Tier.level_of_tightest hbelow]
    exact hjoint
  | @extendStop tier left ts hstop =>
    apply Nat.lt_of_le_of_ne hdescended
    intro hjoint
    have hsome := operatorAt?_isSome hjoint
    simp [hstop] at hsome
  | extendStep _ _ _ ihoperand ihnext =>
    exact ihnext (Nat.le_of_lt_succ (ihoperand trivial))
  | powerStop _ hstop ih =>
    apply Nat.lt_of_le_of_ne (Nat.le_of_lt_succ (ih trivial))
    intro hjoint
    exact hstop (kindAt_of_joint_eq_seven hjoint)
  | powerStep _ _ _ _ ih => exact ih trivial
  | repeated _ _ _ ih => exact ih trivial
  | factorialsStop hstop =>
    exact Nat.lt_of_le_of_ne (joint_le _) fun hjoint => hstop (joint_eq_eight.mp hjoint)
  | factorialsStep _ _ ih => exact ih trivial
  | unaryAtom => exact Nat.lt_succ_of_le (joint_le _)
  | unaryLeading => exact Nat.lt_succ_of_le (joint_le _)
  | atomStep => exact Nat.lt_succ_of_le (joint_le _)
  | atomSingle => exact Nat.lt_succ_of_le (joint_le _)
  | string => exact Nat.lt_succ_of_le (joint_le _)
  | number => exact Nat.lt_succ_of_le (joint_le _)
  | identifier => exact Nat.lt_succ_of_le (joint_le _)
  | group => exact Nat.lt_succ_of_le (joint_le _)

/-! ## Tokens of source text -/

/-- Tokens as they are scanned: their texts have the right shapes, and comments end lines. -/
structure Scanned (ts : List Token) : Prop where
  lexical : ∀ t ∈ ts, t.isLexical = true
  comments : Token.CommentsEndLines ts

namespace Scanned

variable {t : Token} {ts rest : List Token}

theorem head (h : Scanned (t :: ts)) : t.isLexical = true := h.lexical t List.mem_cons_self

theorem tail (h : Scanned (t :: ts)) : Scanned ts :=
  ⟨fun u hu => h.lexical u (List.mem_cons_of_mem t hu), h.comments.2⟩

theorem fits (h : Scanned ts) : ∀ t ∈ ts, t.misfit = none :=
  fun t ht => Token.misfit_eq_none (h.lexical t ht)

theorem behind {as : List Symbol} (h : Scanned ts) (hspells : Spells ts as rest) :
    Scanned rest := by
  obtain ⟨used, rfl, -⟩ := hspells
  exact ⟨fun t ht => h.lexical t (List.mem_append_right used ht), h.comments.suffix⟩

theorem behind_expression {rule : Rule} {e : Node} (h : Scanned ts)
    (he : Derives rule ts e rest) : Scanned rest := by
  obtain ⟨as, hspells, -⟩ := he.spells h.fits
  exact h.behind hspells

theorem behind_statement {phase : Phase} {s : Node} (h : Scanned ts)
    (hs : Composes phase ts s rest) : Scanned rest := by
  obtain ⟨as, hspells, -⟩ := hs.spells h.fits
  exact h.behind hspells

end Scanned

/-! ## Leaves -/

theorem colon_not_mem_name {text : String} (h : Token.isNameText text.toList = true) :
    ':' ∉ (Identifier.ofSource text).name.toList := by
  unfold Identifier.ofSource
  unfold Token.isNameText at h
  split
  · next w hw =>
    rw [hw] at h
    simpa using Token.colon_not_mem_of_isWord h
  · next hplain =>
    split at h
    · next w hw => exact absurd hw (hplain w)
    · exact Token.colon_not_mem_of_isWord (Bool.and_eq_true_iff.mp h).1

theorem identifier_scannable {t : Token} {id : Identifier} (hlex : t.isLexical = true)
    (hkind : t.kind = .identifier) (hname : identifierOf t = .ok id) :
    (Node.identifier id).isScannable = true := by
  unfold identifierOf at hname
  split at hname
  · next text htext =>
    cases hname
    have htext : Token.isNameText text.toList = true := by
      simpa [Token.isLexical, hkind, htext] using And.right (Bool.and_eq_true_iff.mp hlex)
    simpa [Node.isScannable, htext] using colon_not_mem_name htext
  · cases hname

theorem number_scannable {t : Token} {n : Number} (hlex : t.isLexical = true)
    (hkind : t.kind = .number) (hvalue : numberOf t = .ok n) :
    (Node.number n).isScannable = true := by
  unfold numberOf at hvalue
  split at hvalue
  · next text htext =>
    have hnumber : Token.isNumberText text.toList = true := by
      simpa [Token.isLexical, hkind, htext] using And.right (Bool.and_eq_true_iff.mp hlex)
    cases hliteral : Number.ofLiteral text with
    | error e => simp [hliteral] at hvalue
    | ok m =>
      obtain rfl : m = n := by simpa [hliteral] using hvalue
      simpa [Node.isScannable] using Number.nonneg_of_isNumberText hnumber hliteral
  · cases hvalue

theorem text_scannable {t : Token} (hlex : t.isLexical = true) (hkind : t.kind = .string) :
    (textOf .text .text t).every Node.isScannable = true := by
  rw [textOf_eq (Token.misfit_eq_none hlex)]
  cases htext : t.text with
  | none => simp [Token.isLexical, hkind, htext] at hlex
  | some text =>
    simpa [Node.every, Node.isScannable, Token.isLexical, hkind, htext] using
      And.right (Bool.and_eq_true_iff.mp hlex)

/-! ## Expressions -/

/-- An expression without clashes, in front of what it does not draw into itself. -/
structure Clear (e : Node) (rest : List Token) : Prop where
  scannable : e.every Node.isScannable = true
  clashFree : e.every Node.isClashFree = true
  follow : Follow e rest

/-- What a rule starts from is clear of what follows. -/
def Rule.Clear : Rule → List Token → Prop
  | .extend _ left, ts => Parse.Clear left ts
  | .factorials first, ts => Parse.Clear first ts
  | _, _ => True

theorem Clear.wellBuilt {e : Node} {rest : List Token} (h : Clear e rest)
    (hstratified : e.Stratified) (hlevel : 1 ≤ e.level) : e.WellBuilt :=
  e.wellBuilt_of_grammatical
    ⟨hstratified, e.every_mono Node.isLegible_of_isScannable h.scannable, h.clashFree⟩ hlevel

/-- An expression starts with the token that it is read from. -/
theorem Derives.kindAt {rule : Rule} {ts rest : List Token} {e : Node} (h : Derives rule ts e rest)
    (hseen : rule.seen = []) (hfit : ∀ t ∈ ts, t.misfit = none) (he : e.WellBuilt) :
    kindAt ts = e.firstKind := by
  obtain ⟨as, ⟨used, rfl, rfl⟩, hsymbols⟩ := h.spells hfit
  rw [hseen, List.nil_append] at hsymbols
  obtain ⟨kind, hfirst, -⟩ := he.opens
  rw [Node.firstKind, hsymbols]
  cases used with
  | nil => simp [Node.firstKind, hsymbols] at hfirst
  | cons t used => simp

theorem Clear.unary {op : Operator} {a : Node} {rest : List Token}
    (hscannable : a.every Node.isScannable = true) (hclashFree : a.every Node.isClashFree = true)
    (happart : (Node.unary op a).isClashFree = true) (hfollow : Follow (.unary op a) rest) :
    Clear (.unary op a) rest := by
  refine ⟨?_, ?_, hfollow⟩
  · simpa [Node.every, Node.isScannable] using hscannable
  · simp only [Node.every, Bool.and_eq_true]
    exact ⟨happart, hclashFree⟩

theorem Clear.binary {op : Operator} {a b : Node} {ts rest : List Token} (ha : Clear a ts)
    (hb : Clear b rest) (hwell : b.WellBuilt) (happart : (Node.binary op a b).isClashFree = true) :
    Clear (.binary op a b) rest := by
  refine ⟨?_, ?_, ?_⟩
  · simp [Node.every, Node.isScannable, ha.scannable, hb.scannable]
  · simp [Node.every, happart, ha.clashFree, hb.clashFree]
  · refine ⟨hb.follow.step, fun hlast => hb.follow.equal ?_⟩
    rwa [Node.lastKind_binary hwell.symbols_ne_nil] at hlast

/-- An operator that was read between two operands clashes with neither. -/
theorem apart_of_operator {tier : Tier} {op : Operator} {more : Nat} {t : Token} {ts : List Token}
    {a b : Node} (ha : Follow a (t :: ts))
    (hop : tier.operator? t.kind (kindAt ts) = some (op, more))
    (hb : kindAt (ts.drop more) = b.firstKind) : (Node.binary op a b).isClashFree = true := by
  have hkinds := operator?_kinds hop
  have hsign {sign : Token.Kind} (hsign : sign = .plus ∨ sign = .minus) (hop : op.kinds = [sign]) :
      (!(a.endsInName && b.firstKind == some sign)) = true := by
    obtain ⟨rfl, rfl⟩ : t.kind = sign ∧ more = 0 := by simpa [hop, eq_comm] using hkinds
    rw [Bool.not_eq_true', Bool.and_eq_false_iff]
    cases hname : a.endsInName with
    | false => exact .inl rfl
    | true =>
      have hnext := ha.step hname hsign rfl
      exact .inr (by simpa [← hb] using hnext)
  cases op with
  | add => exact hsign (.inl rfl) rfl
  | sub => exact hsign (.inr rfl) rfl
  | equal =>
    have hkind : t.kind = .equal := by
      rcases hkinds with ⟨hkinds, -⟩ | ⟨hkinds, -⟩
      · exact (List.cons.inj hkinds).1.symm
      · exact (List.cons.inj hkinds).1.symm
    have hlast := fun hlast => ha.equal hlast (congrArg some hkind)
    simpa [Node.isClashFree] using hlast
  | _ => rfl

/-- What a rule finds, as far as it is clear of the rest. -/
def Rule.Cleared : Rule → Node → List Token → Prop
  | .single, e, _ => e.every Node.isScannable = true ∧ e.every Node.isClashFree = true
  | _, e, rest => Parse.Clear e rest

/-- The tokens of a step of a variable are read as one. -/
theorem stepAt?_ne_none {t : Token} {ts : List Token} {sign : Token.Kind}
    (hsign : sign = .plus ∨ sign = .minus) (ht : t.kind = .identifier)
    (hfirst : kindAt ts = some sign) (hsecond : kindAt ts.tail = some sign) :
    stepAt? (t :: ts) ≠ none := by
  obtain ⟨b, ts, rfl, hb⟩ := kindAt_eq_some hfirst
  obtain ⟨c, ts, rfl, hc⟩ := kindAt_eq_some hsecond
  rcases hsign with rfl | rfl <;> simp [stepAt?, step?, ht, hb, hc]

/-- Anything may follow an expression that ends neither in a name nor in a factorial. -/
theorem Follow.of_closed {e : Node} (hname : e.endsInName = false)
    (hlast : e.lastKind ≠ some .exclam) (rest : List Token) : Follow e rest := by
  refine ⟨fun h => ?_, fun h => absurd h hlast⟩
  rw [hname] at h
  cases h

theorem follow_value {ts rest : List Token} {e : Node} (h : Derives .single ts e rest)
    (hstep : stepAt? ts = none) (hfit : ∀ t ∈ ts, t.misfit = none) : Follow (.value e) rest := by
  cases h with
  | @string t =>
    rw [textOf_eq (hfit t List.mem_cons_self)]
    exact .of_closed rfl (fun hlast => by cases hlast) rest
  | number => exact .of_closed rfl (fun hlast => by cases hlast) rest
  | identifier hkind =>
    refine ⟨?_, fun hlast => by cases hlast⟩
    intro _ sign hsign hfirst hsecond
    exact stepAt?_ne_none hsign hkind hfirst hsecond hstep
  | group =>
    refine .of_closed rfl (fun hlast => ?_) rest
    simp [Node.lastKind, Node.symbols, List.getLast?_cons, Symbol.kind] at hlast

/-- A leading operator that was read does not clash with its operand. -/
theorem apart_of_leading {t : Token} {ts rest : List Token} {op : Operator} {a : Node}
    (hop : leadingOperator? t.kind = some op) (hstep : stepAt? (t :: ts) = none)
    (h : Derives .unary ts a rest) (hfit : ∀ t ∈ ts, t.misfit = none) :
    (Node.unary op a).isClashFree = true := by
  unfold Node.isClashFree
  split
  · next b heq =>
    cases heq
    have ht : t.kind = .minus := by
      cases hkind : t.kind <;> simp [hkind, leadingOperator?] at hop
      rfl
    obtain ⟨as, ⟨used, rfl, rfl⟩, hsymbols⟩ := h.spells hfit
    have hsymbols : .mark .minus :: b.symbols = used.map Token.symbol := hsymbols
    obtain ⟨u, us, rfl, hu, hus⟩ := List.map_eq_cons_iff.mp hsymbols.symm
    have hu : u.kind = .minus := by rw [← u.kind_symbol, hu]; rfl
    simp only [bne_iff_ne, ne_eq]
    intro hname
    rw [Node.firstKind, ← hus] at hname
    cases us with
    | nil => cases hname
    | cons v us =>
      have hv : v.kind = .identifier := by simpa using hname
      simp [stepAt?, step?, ht, hu, hv] at hstep
  all_goals simp_all

theorem follow_leading {op : Operator} {a : Node} {rest : List Token} (ha : a.WellBuilt)
    (hop : op.unaryLevel = 9) (h : Follow a rest) : Follow (.unary op a) rest := by
  obtain ⟨htrailing, hstep, -⟩ := Node.isTrailing_of_leading hop
  refine ⟨fun hname => h.step ?_, fun hlast => h.equal ?_⟩
  · simpa [Node.endsInName, htrailing, hstep] using hname
  · rwa [Node.lastKind_leading htrailing ha.symbols_ne_nil] at hlast

theorem follow_step {op : Operator} (hop : op.isStep = true) (id : Identifier)
    (rest : List Token) : Follow (.unary op (.value (.identifier id))) rest := by
  have hlast : (Node.unary op (.value (.identifier id))).lastKind ≠ some .exclam := by
    rw [Node.lastKind, Node.symbols]
    cases op <;> first | exact absurd hop (by decide) | (intro hlast; cases hlast)
  refine .of_closed ?_ hlast rest
  simp [Node.endsInName, hop]

theorem step?_mem {a b c t : Token} {op : Operator} (h : step? a b c = some (op, t))
    (ts : List Token) : t ∈ a :: b :: c :: ts := by
  simp only [step?] at h
  split at h <;> cases h <;> simp

/-- What a rule finds is clear of what it leaves. -/
theorem Derives.clear {rule : Rule} {ts rest : List Token} {e : Node} (h : Derives rule ts e rest)
    (hscanned : Scanned ts) (hfounded : rule.Founded) (hclear : rule.Clear ts) :
    rule.Cleared e rest := by
  induction h with
  | chain hfirst _ ihfirst ihmore =>
    obtain ⟨hleft, hlevel⟩ := hfirst.stratified trivial
    exact ihmore (hscanned.behind_expression hfirst) ⟨hleft, Nat.le_of_succ_le hlevel⟩
      (ihfirst hscanned trivial trivial)
  | operandChain _ _ ih => exact ih hscanned trivial trivial
  | operandPower _ _ ih => exact ih hscanned trivial trivial
  | extendStop => exact hclear
  | @extendStep tier left t ts op more right mid e rest hop hoperand _ ihoperand ihnext =>
    have hbehind := hscanned.behind (operator?_symbols hop)
    have hright : Clear right mid := ihoperand hbehind trivial trivial
    have hadmits := hoperand.stratified trivial
    have hwell := hright.wellBuilt hadmits.1 (Nat.le_of_lt (Nat.lt_of_le_of_lt
      tier.level_bounds.1 hadmits.2))
    have happart := apart_of_operator hclear.follow hop (hoperand.kindAt rfl hbehind.fits hwell)
    exact ihnext (hbehind.behind_expression hoperand)
      (admits_operation (operator?_level hop) hfounded hadmits) (hclear.binary hright hwell happart)
  | powerStop _ _ ih => exact ih hscanned trivial trivial
  | @powerStep ts base t mid exponent rest hfirst hcaret hnext ihfirst ihnext =>
    have hexponent : Clear exponent rest :=
      ihnext (hscanned.behind_expression hfirst).tail trivial trivial
    have hadmits := hnext.stratified trivial
    have hwell := hexponent.wellBuilt hadmits.1 (Nat.le_trans (by decide) hadmits.2)
    exact Clear.binary (ihfirst hscanned trivial trivial) hexponent hwell rfl
  | repeated hfirst _ ihfirst ihmore =>
    obtain ⟨hoperand, hlevel⟩ := hfirst.stratified trivial
    exact ihmore (hscanned.behind_expression hfirst) ⟨hoperand, Nat.le_of_succ_le hlevel⟩
      (ihfirst hscanned trivial trivial)
  | factorialsStop => exact hclear
  | @factorialsStep operand t ts e rest hexclam _ ih =>
    obtain ⟨hoperand, hlevel⟩ := hfounded
    refine ih hscanned.tail ?_ ?_
    · refine ⟨stratified_unary ?_ hoperand, Nat.le_refl 8⟩
      simpa [Node.isLayered] using hlevel
    · refine .unary hclear.scannable hclear.clashFree rfl ⟨fun hname => ?_, fun _ => hexclam.2⟩
      cases hname
  | unaryAtom _ ih => exact ih hscanned trivial trivial
  | @unaryLeading t ts op a rest hop hstep hoperand ih =>
    have ha : Clear a rest := ih hscanned.tail trivial trivial
    have hadmits := hoperand.stratified trivial
    have hwell := ha.wellBuilt hadmits.1 (Nat.le_trans (by decide) hadmits.2)
    exact .unary ha.scannable ha.clashFree (apart_of_leading hop hstep hoperand hscanned.tail.fits)
      (follow_leading hwell (leadingOperator?_level hop).1 ha.follow)
  | @atomStep a b c t ts op id hstep hname =>
    have ht := hscanned.lexical t (step?_mem hstep ts)
    have hleaf := identifier_scannable ht (step?_symbols hstep).1 hname
    refine .unary ?_ rfl ?_ (follow_step (step?_level hstep).2 id ts)
    · simpa [Node.every, Node.isScannable] using hleaf
    · cases op <;> rfl
  | atomSingle hstep hvalue ih =>
    obtain ⟨hscannable, hclashFree⟩ := ih hscanned trivial trivial
    refine ⟨?_, ?_, follow_value hvalue hstep hscanned.fits⟩
    · simpa [Node.every, Node.isScannable] using hscannable
    · simpa [Node.every, Node.isClashFree] using hclashFree
  | string hkind =>
    refine ⟨text_scannable hscanned.head hkind, ?_⟩
    rw [textOf_eq (Token.misfit_eq_none hscanned.head)]
    rfl
  | number hkind hvalue => exact ⟨number_scannable hscanned.head hkind hvalue, rfl⟩
  | identifier hkind hname => exact ⟨identifier_scannable hscanned.head hkind hname, rfl⟩
  | group _ _ _ ih =>
    have hinner : Clear _ _ := ih hscanned.tail trivial trivial
    refine ⟨?_, ?_⟩
    · simpa [Node.every, Node.isScannable] using hinner.scannable
    · simpa [Node.every, Node.isClashFree] using hinner.clashFree

theorem Derives.clear_expression {ts rest : List Token} {e : Node}
    (h : Derives (.chain .conjunction) ts e rest) (hscanned : Scanned ts) : Clear e rest :=
  h.clear hscanned trivial trivial

theorem Derives.joint_expression {ts rest : List Token} {e : Node}
    (h : Derives (.chain .conjunction) ts e rest) : joint rest = 0 :=
  Nat.lt_one_iff.mp (h.joint_lt trivial)

/-! ## Statements -/

theorem isOpenEnded_conditional (c : Node) (body otherwise : List Node) :
    (Node.conditional c body otherwise).isOpenEnded = false ∧
      (Node.conditional c body otherwise).isComment = false ∧
        (Node.conditional c body otherwise).startsWithSign = false := by
  unfold Node.conditional
  split <;> exact ⟨rfl, rfl, rfl⟩

/-- What is known of a statement when a phase of it ends. -/
def Phase.Ended : Phase → Node → List Token → Prop
  | .statement, s, rest => s.isOpenEnded = true → joint rest = 0
  | .branches .., s, _ => s.isOpenEnded = false ∧ s.isComment = false ∧ s.startsWithSign = false

/-- No operator follows a statement that it could extend. -/
theorem Composes.ended {phase : Phase} {ts rest : List Token} {s : Node}
    (h : Composes phase ts s rest) : phase.Ended s rest := by
  induction h with
  | @comment t =>
    intro hopen
    unfold textOf at hopen
    split at hopen
    · cases hopen
    · split at hopen <;> cases hopen
    · cases hopen
  | goto _ htarget => exact fun _ => htarget.joint_expression
  | assignment _ _ hvalue => exact fun _ => hvalue.joint_expression
  | evaluation _ hvalue => exact fun _ => hvalue.joint_expression
  | conditional _ _ _ _ ih =>
    intro hopen
    rw [ih.1] at hopen
    cases hopen
  | close => exact isOpenEnded_conditional _ _ _
  | turn _ _ ih => exact ih
  | bodyStep _ _ _ ih => exact ih
  | otherwiseStep _ _ _ ih => exact ih

theorem joint_of_sign {ts : List Token} (h : kindAt ts = some .plus ∨ kindAt ts = some .minus) :
    joint ts ≠ 0 := by
  rcases h with h | h
  all_goals
    obtain ⟨t, ts, rfl, ht⟩ := kindAt_eq_some h
    simp [joint, ht]

/-- Only an operator in front makes a statement start with a sign. -/
theorem Composes.joint_of_startsWithSign {ts rest : List Token} {s : Node}
    (h : Composes .statement ts s rest) (hscanned : Scanned ts)
    (hsign : s.startsWithSign = true) : joint ts ≠ 0 := by
  cases h with
  | comment hkind =>
    rw [textOf_eq (Token.misfit_eq_none hscanned.head)] at hsign
    cases hsign
  | goto => cases hsign
  | assignment => cases hsign
  | @evaluation _ e _ _ hvalue =>
    have hgrounded := hvalue.grounded
    have hwell := (hvalue.clear_expression hscanned).wellBuilt hgrounded.1 hgrounded.2
    have hfirst := hvalue.kindAt rfl hscanned.fits hwell
    apply joint_of_sign
    rw [hfirst]
    simpa [Node.startsWithSign, Node.firstKind, Node.symbols] using hsign
  | conditional _ _ _ hbranches =>
    rw [hbranches.ended.2.2] at hsign
    cases hsign

theorem Composes.endsLine_of_comment {ts rest : List Token} {s : Node}
    (h : Composes .statement ts s rest) (hscanned : Scanned ts)
    (hcomment : s.isComment = true) : Token.EndsLine rest := by
  cases h with
  | comment hkind => exact hscanned.comments.1 hkind
  | goto => cases hcomment
  | assignment => cases hcomment
  | evaluation => cases hcomment
  | conditional _ _ _ hbranches =>
    rw [hbranches.ended.2.1] at hcomment
    cases hcomment

/-- A statement does not start where a line ends. -/
theorem Composes.not_endsLine {ts rest : List Token} {s : Node}
    (h : Composes .statement ts s rest) : ¬ Token.EndsLine ts := by
  obtain ⟨kind, hkind, hopens⟩ := h.opens
  rintro (rfl | hnewline)
  · cases hkind
  · obtain rfl : kind = .newline := Option.some.inj (hkind.symm.trans hnewline)
    simp [isOpening] at hopens

/-! ## Statements one after the other -/

/-- A statement whose leaves have the texts of tokens and that has no clashes. -/
def Sound (s : Node) : Prop := s.every Node.isScannable = true ∧ s.every Node.isClashFree = true

/-- Statements that have been read, up to the rest of the tokens. -/
structure Joined (ss : List Node) (ts : List Token) : Prop where
  sound : ∀ s ∈ ss, Sound s
  separated : Node.separated ss = true
  ended : ∀ s, ss.getLast? = some s → s.isOpenEnded = true → joint ts = 0
  comments : ∀ s ∈ ss.dropLast, s.isComment = false
  closed : ∀ s, ss.getLast? = some s → s.isComment = true → Token.EndsLine ts

theorem Joined.nil (ts : List Token) : Joined [] ts := by
  refine ⟨?_, rfl, ?_, ?_, ?_⟩ <;> simp

theorem separated_concat {ss : List Node} {s : Node} (hss : Node.separated ss = true)
    (hlast : ∀ b, ss.getLast? = some b → b.isOpenEnded = true → s.startsWithSign = false) :
    Node.separated (ss ++ [s]) = true := by
  induction ss with
  | nil => rfl
  | cons a ss ih =>
    cases ss with
    | nil =>
      have ha := hlast a rfl
      cases hopen : a.isOpenEnded <;> simp_all [Node.separated]
    | cons b ss =>
      obtain ⟨hfirst, hss⟩ := Bool.and_eq_true_iff.mp hss
      have hnext := ih hss fun b hb => hlast b (by simpa using hb)
      exact Bool.and_eq_true_iff.mpr ⟨hfirst, hnext⟩

theorem Joined.no_comment {ss : List Node} {ts : List Token} (h : Joined ss ts)
    (hts : ¬ Token.EndsLine ts) : ∀ s ∈ ss, s.isComment = false := by
  rcases List.eq_nil_or_concat ss with rfl | ⟨as, a, rfl⟩
  · simp
  · have hcomments := h.comments
    rw [List.concat_eq_append, List.dropLast_concat] at hcomments
    rw [List.concat_eq_append]
    apply forall_mem_concat hcomments
    cases hcomment : a.isComment with
    | false => rfl
    | true => exact absurd (h.closed a (by simp) hcomment) hts

theorem Joined.concat {ss : List Node} {s : Node} {ts rest : List Token} (h : Joined ss ts)
    (hs : Composes .statement ts s rest) (hsound : Sound s) (hscanned : Scanned ts) :
    Joined (ss ++ [s]) rest := by
  have hlast {b : Node} (hb : (ss ++ [s]).getLast? = some b) : s = b := by simpa using hb
  refine ⟨?_, ?_, ?_, ?_, ?_⟩
  · exact forall_mem_concat h.sound hsound
  · apply separated_concat h.separated
    intro b hb hopen
    cases hsign : s.startsWithSign with
    | false => rfl
    | true => exact absurd (h.ended b hb hopen) (hs.joint_of_startsWithSign hscanned hsign)
  · intro b hb
    exact hlast hb ▸ hs.ended
  · rw [List.dropLast_concat]
    exact h.no_comment hs.not_endsLine
  · intro b hb
    exact hlast hb ▸ hs.endsLine_of_comment hscanned

/-- The statements of a branch that has been read to its end. -/
structure Finished (ss : List Node) : Prop where
  sound : ∀ s ∈ ss, Sound s
  separated : Node.separated ss = true
  comments : ∀ s ∈ ss, s.isComment = false

theorem Joined.finished {ss : List Node} {t : Token} {ts : List Token} (h : Joined ss (t :: ts))
    (ht : t.kind ≠ .newline) : Finished ss := by
  refine ⟨h.sound, h.separated, h.no_comment ?_⟩
  rintro (hempty | hnewline)
  · cases hempty
  · exact ht (by simpa using hnewline)

theorem Finished.ifThen {c : Node} {body : List Node} (hc : Sound c) (hbody : Finished body) :
    Sound (.ifThen c body) := by
  refine ⟨?_, ?_⟩
  · simp only [Node.every, Bool.and_eq_true, Node.everyAll_iff]
    refine ⟨?_, hc.1, fun s hs => (hbody.sound s hs).1⟩
    simpa [Node.isScannable] using hbody.comments
  · simp only [Node.every, Bool.and_eq_true, Node.everyAll_iff]
    exact ⟨hbody.separated, hc.2, fun s hs => (hbody.sound s hs).2⟩

theorem Finished.ifElse {c : Node} {body otherwise : List Node} (hc : Sound c)
    (hbody : Finished body) (hotherwise : Finished otherwise) (hne : otherwise ≠ []) :
    Sound (.ifElse c body otherwise) := by
  refine ⟨?_, ?_⟩
  · simp only [Node.every, Bool.and_eq_true, Node.everyAll_iff]
    refine ⟨?_, hc.1, fun s hs => (hbody.sound s hs).1, fun s hs => (hotherwise.sound s hs).1⟩
    simpa [Node.isScannable] using And.intro hbody.comments hotherwise.comments
  · simp only [Node.every, Bool.and_eq_true, Node.everyAll_iff]
    refine ⟨?_, hc.2, fun s hs => (hbody.sound s hs).2, fun s hs => (hotherwise.sound s hs).2⟩
    simp [Node.isClashFree, hne, hbody.separated, hotherwise.separated]

/-- What a phase has read before it starts has no clashes. -/
def Phase.Clear : Phase → List Token → Prop
  | .statement, _ => True
  | .branches c body none, ts => Sound c ∧ Joined body ts
  | .branches c body (some otherwise), ts => Sound c ∧ Finished body ∧ Joined otherwise ts

theorem Clear.sound {e : Node} {rest : List Token} (h : Clear e rest) : Sound e :=
  ⟨h.scannable, h.clashFree⟩

theorem comment_sound {t : Token} (hlex : t.isLexical = true) (hkind : t.kind = .comment) :
    Sound (textOf .comment .comment t) := by
  rw [textOf_eq (Token.misfit_eq_none hlex)]
  cases htext : t.text with
  | none => simp [Token.isLexical, hkind, htext] at hlex
  | some text =>
    refine ⟨?_, rfl⟩
    simpa [Node.every, Node.isScannable, Token.isLexical, hkind, htext] using
      And.right (Bool.and_eq_true_iff.mp hlex)

theorem conditional_sound {c : Node} {body : List Node} {otherwise : Option (List Node)} {t : Token}
    {ts : List Token} (h : (Phase.branches c body otherwise).Clear (t :: ts))
    (ht : t.kind ≠ .newline) : Sound (.conditional c body (otherwise.getD [])) := by
  match otherwise, h with
  | none, ⟨hc, hbody⟩ => exact (hbody.finished ht).ifThen hc
  | some [], ⟨hc, hbody, _⟩ => exact hbody.ifThen hc
  | some (s :: ss), ⟨hc, hbody, hotherwise⟩ =>
    exact hbody.ifElse hc (hotherwise.finished ht) (List.cons_ne_nil s ss)

/-- What a phase composes of scanned tokens has no clashes. -/
theorem Composes.sound {phase : Phase} {ts rest : List Token} {s : Node}
    (h : Composes phase ts s rest) (hscanned : Scanned ts) (hclear : phase.Clear ts) : Sound s := by
  induction h with
  | comment hkind => exact comment_sound hscanned.head hkind
  | goto _ htarget =>
    have he := (htarget.clear_expression hscanned.tail).sound
    exact ⟨by simpa [Node.every, Node.isScannable] using he.1,
      by simpa [Node.every, Node.isClashFree] using he.2⟩
  | assignment hspelled hname hvalue =>
    obtain ⟨hkind, hop⟩ := assignmentAt?_symbols hspelled
    have hleaf := identifier_scannable hscanned.head hkind hname
    have he := (hvalue.clear_expression (hscanned.tail.behind hop)).sound
    refine ⟨?_, ?_⟩
    · simp only [Node.every, Bool.and_eq_true]
      exact ⟨rfl, hleaf, he.1⟩
    · simp only [Node.every, Bool.and_eq_true]
      exact ⟨rfl, rfl, he.2⟩
  | evaluation _ hvalue =>
    have he := (hvalue.clear_expression hscanned).sound
    exact ⟨by simpa [Node.every, Node.isScannable] using he.1,
      by simpa [Node.every, Node.isClashFree] using he.2⟩
  | conditional _ htest _ _ ih =>
    have hc := (htest.clear_expression hscanned.tail).sound
    exact ih (hscanned.tail.behind_expression htest).tail ⟨hc, .nil _⟩
  | close hkind => exact conditional_sound hclear (by simp [hkind])
  | turn hkind _ ih =>
    obtain ⟨hc, hbody⟩ := hclear
    exact ih hscanned.tail ⟨hc, hbody.finished (by simp [hkind]), .nil _⟩
  | bodyStep hfirst _ ihfirst ihnext =>
    obtain ⟨hc, hbody⟩ := hclear
    have hs := ihfirst hscanned trivial
    exact ihnext (hscanned.behind_statement hfirst) ⟨hc, hbody.concat hfirst hs hscanned⟩
  | otherwiseStep hfirst _ ihfirst ihnext =>
    obtain ⟨hc, hbody, hotherwise⟩ := hclear
    have hs := ihfirst hscanned trivial
    exact ihnext (hscanned.behind_statement hfirst)
      ⟨hc, hbody, hotherwise.concat hfirst hs hscanned⟩

/-! ## Lines -/

theorem lineFrom_sound {soFar : List Node} {ts : List Token} {node : Node}
    (h : (lineFrom soFar ts).result = .ok node) (hscanned : Scanned ts)
    (hjoined : Joined soFar ts) :
    ∃ statements rest, node = .line statements ∧ Joined statements rest := by
  fun_induction lineFrom soFar ts with
  | case1 soFar =>
    cases h
    exact ⟨soFar, [], rfl, hjoined⟩
  | case2 soFar t ts =>
    cases h
    exact ⟨soFar, t :: ts, rfl, hjoined⟩
  | case3 => cases h
  | case4 soFar t ts _ next s rest _ hfound ih =>
    have hcomposes := composes_of_statement hfound
    have hs := hcomposes.sound hscanned trivial
    exact ih h (hscanned.behind_statement hcomposes) (hjoined.concat hcomposes hs hscanned)

/-- A line that was read from scanned tokens is grammatical, and can be written as text. -/
theorem grammatical_of_line {ts : List Token} {node : Node} (h : (line ts).result = .ok node)
    (hscanned : Scanned ts) :
    ∃ statements, node = .line statements ∧ node.Grammatical ∧
      node.every Node.isScannable = true := by
  obtain ⟨statements, rest, rfl, hjoined⟩ := lineFrom_sound h hscanned (.nil ts)
  have hscannable : (Node.line statements).every Node.isScannable = true := by
    simp only [Node.every, Bool.and_eq_true, Node.everyAll_iff]
    refine ⟨?_, fun s hs => (hjoined.sound s hs).1⟩
    simpa [Node.isScannable] using hjoined.comments
  have hclashFree : (Node.line statements).every Node.isClashFree = true := by
    simp only [Node.every, Bool.and_eq_true, Node.everyAll_iff]
    exact ⟨hjoined.separated, fun s hs => (hjoined.sound s hs).2⟩
  have hstratified : (Node.line statements).Stratified := by
    have htrees : ∀ n ∈ trees StatementFault.fragments (lineFrom [] ts).result, n.Stratified :=
      lineFrom_stratified (by simp)
    have h : (lineFrom [] ts).result = .ok (.line statements) := h
    rw [h] at htrees
    exact htrees _ List.mem_cons_self
  exact ⟨statements, rfl, ⟨hstratified, Node.every_mono Node.isLegible_of_isScannable _ hscannable,
    hclashFree⟩, hscannable⟩

/-- So is a line that was read from source text, whose tokens are scanned ones. -/
theorem grammatical_of_lineOfSource {text : String} {node : Node}
    (h : lineOfSource text = .ok node) :
    ∃ statements, node = .line statements ∧ node.Grammatical ∧
      node.every Node.isScannable = true := by
  obtain ⟨ts, hscan, hline⟩ := ofSource_eq_ok h
  obtain ⟨hlexical, hcomments⟩ := Token.lexical_of_scan hscan
  exact grammatical_of_line hline ⟨hlexical, hcomments⟩

end Parse

end Yolol

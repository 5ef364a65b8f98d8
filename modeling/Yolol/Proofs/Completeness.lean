-- SUMMARY: Every grammatical expression is what the parser finds in the tokens that write it.
import Yolol.Proofs.Grammatical
import Yolol.Proofs.Soundness

/-!
# Every grammatical expression is found

By induction on its construction, an expression is derived from the tokens that write it,
whatever stands behind that is not drawn into it. For operators that associate to the
left the derivation of the left operand has to go on with the rest of the chain, so what
is proved of each expression is that any continuation behind it can be put in front.
-/

namespace Yolol

/-! ## Tokens that write symbols -/

/-- A token that carries a text if its kind needs one, and nothing in place of it. -/
def Token.isIntact (t : Token) : Bool := t.misfit.isNone && (t.text.isSome || !t.kind.carriesText)

/-- The tokens stand for the symbols, each with all that it needs. -/
structure Writes (used : List Token) (as : List Symbol) : Prop where
  symbols : used.map Token.symbol = as
  intact : ∀ t ∈ used, t.isIntact = true

namespace Writes

variable {used : List Token} {a : Symbol} {as bs : List Symbol}

theorem eq_nil (h : Writes used []) : used = [] := List.map_eq_nil_iff.mp h.symbols

theorem cons_inv (h : Writes used (a :: as)) :
    ∃ t us, used = t :: us ∧ t.symbol = a ∧ t.isIntact = true ∧ Writes us as := by
  obtain ⟨hsymbols, hintact⟩ := h
  obtain ⟨t, us, rfl, rfl, rfl⟩ := List.map_eq_cons_iff.mp hsymbols
  obtain ⟨ht, hus⟩ := List.forall_mem_cons.mp hintact
  exact ⟨t, us, rfl, rfl, ht, rfl, hus⟩

theorem append_inv (h : Writes used (as ++ bs)) :
    ∃ us vs, used = us ++ vs ∧ Writes us as ∧ Writes vs bs := by
  obtain ⟨hsymbols, hintact⟩ := h
  obtain ⟨us, vs, rfl, rfl, rfl⟩ := List.map_eq_append_iff.mp hsymbols
  obtain ⟨hus, hvs⟩ := List.forall_mem_append.mp hintact
  exact ⟨us, vs, rfl, ⟨rfl, hus⟩, ⟨rfl, hvs⟩⟩

theorem single_inv (h : Writes used [a]) :
    ∃ t, used = [t] ∧ t.symbol = a ∧ t.isIntact = true := by
  obtain ⟨t, us, rfl, hsymbol, hintact, hus⟩ := h.cons_inv
  obtain rfl := hus.eq_nil
  exact ⟨t, rfl, hsymbol, hintact⟩

theorem three_inv {b c : Symbol} (h : Writes used [a, b, c]) :
    ∃ x y z, used = [x, y, z] ∧ x.symbol = a ∧ y.symbol = b ∧ z.symbol = c ∧
      x.isIntact = true ∧ z.isIntact = true := by
  obtain ⟨x, _, rfl, hx, hintactx, h⟩ := h.cons_inv
  obtain ⟨y, _, rfl, hy, -, h⟩ := h.cons_inv
  obtain ⟨z, rfl, hz, hintactz⟩ := h.single_inv
  exact ⟨x, y, z, rfl, hx, hy, hz, hintactx, hintactz⟩

/-- A single token of which only the kind matters. -/
theorem mark_inv {kind : Token.Kind} (h : Writes used [.mark kind]) :
    ∃ t, used = [t] ∧ t.kind = kind := by
  obtain ⟨t, rfl, hsymbol, -⟩ := h.single_inv
  exact ⟨t, rfl, by rw [← t.kind_symbol, hsymbol]; rfl⟩

theorem map_kind (h : Writes used as) : used.map (·.kind) = as.map Symbol.kind := by
  rw [← h.symbols, List.map_map]
  exact List.map_congr_left fun t _ => t.kind_symbol.symm

/-- The first token of an expression is of the kind that its first symbol says. -/
theorem kindAt {e : Node} {kind : Token.Kind} (h : Writes used e.symbols)
    (hfirst : e.firstKind = some kind) (rest : List Token) :
    Parse.kindAt (used ++ rest) = some kind := by
  obtain ⟨a, ha, rfl⟩ := Option.map_eq_some_iff.mp hfirst
  obtain ⟨as, has⟩ := List.head?_eq_some_iff.mp ha
  obtain ⟨t, us, rfl, rfl, -, -⟩ := cons_inv (has ▸ h)
  simp

theorem kindAt_self {e : Node} {kind : Token.Kind} (h : Writes used e.symbols)
    (hfirst : e.firstKind = some kind) : Parse.kindAt used = some kind := by
  simpa using h.kindAt hfirst []

theorem operator {op : Operator} (h : Writes used op.symbols) :
    used.map (·.kind) = op.kinds := by
  rw [h.map_kind, Operator.symbols, List.map_map]
  exact List.map_id' op.kinds

theorem leading_inv {op : Operator} {a : Node} (hop : op.unaryLevel = 9)
    (h : Writes used (Node.unary op a).symbols) :
    ∃ t us, used = t :: us ∧ Parse.leadingOperator? t.kind = some op ∧ Writes us a.symbols := by
  obtain ⟨htrailing, -, kind, hkinds, hleading⟩ := Node.isTrailing_of_leading hop
  simp only [Node.symbols, htrailing, Bool.false_eq_true, if_false] at h
  obtain ⟨vs, us, rfl, hvs, hus⟩ := h.append_inv
  rw [Operator.symbols, hkinds] at hvs
  obtain ⟨t, rfl, rfl⟩ := hvs.mark_inv
  exact ⟨t, us, rfl, hleading, hus⟩

theorem factorial_inv {a : Node} (h : Writes used (Node.unary .factorial a).symbols) :
    ∃ us t, used = us ++ [t] ∧ Writes us a.symbols ∧ t.kind = .exclam := by
  simp only [Node.symbols, Operator.isTrailing, if_true] at h
  obtain ⟨us, vs, rfl, hus, hvs⟩ := h.append_inv
  obtain ⟨t, rfl, ht⟩ := hvs.mark_inv
  exact ⟨us, t, rfl, hus, ht⟩

theorem binary_inv {op : Operator} {a b : Node} (h : Writes used (Node.binary op a b).symbols) :
    ∃ us os vs, used = us ++ (os ++ vs) ∧ Writes us a.symbols ∧ os.map (·.kind) = op.kinds ∧
      Writes vs b.symbols := by
  obtain ⟨us, _, rfl, hus, h⟩ := h.append_inv
  obtain ⟨os, vs, rfl, hos, hvs⟩ := h.append_inv
  exact ⟨us, os, vs, rfl, hus, hos.operator, hvs⟩

end Writes

namespace Parse

/-! ## Leaves -/

theorem kind_of_symbol {t : Token} {a : Symbol} (h : t.symbol = a) : t.kind = a.kind := by
  rw [← h, t.kind_symbol]

theorem text_of_intact {t : Token} {kind : Token.Kind} {s : String}
    (hsymbol : t.symbol = .text kind s) (hcarries : kind.carriesText = true)
    (hintact : t.isIntact = true) : t.text = some s := by
  have hkind : t.kind = kind := kind_of_symbol hsymbol
  subst hkind
  have hsome : t.text.isSome = true := by
    simp only [Token.isIntact, hcarries, Bool.not_true, Bool.or_false, Bool.and_eq_true] at hintact
    exact hintact.2
  obtain ⟨text, htext⟩ := Option.isSome_iff_exists.mp hsome
  unfold Token.symbol at hsymbol
  split at hsymbol <;> simp_all

theorem ofSource_source {id : Identifier} (h : ':' ∉ id.name.toList) :
    Identifier.ofSource id.source = id := by
  obtain ⟨name, shared⟩ := id
  cases shared with
  | true => simp [Identifier.source, Identifier.ofSource]
  | false =>
    simp only [Identifier.source, Identifier.ofSource]
    split
    · next rest hname => simp_all
    · rfl

theorem identifierOf_eq {t : Token} {id : Identifier}
    (hsymbol : t.symbol = .text .identifier id.source) (hintact : t.isIntact = true)
    (hname : ':' ∉ id.name.toList) : identifierOf t = .ok id := by
  simp only [identifierOf, text_of_intact hsymbol rfl hintact, ofSource_source hname]

theorem numberOf_eq {t : Token} {n : Number} (hsymbol : t.symbol = .number (some n)) :
    numberOf t = .ok n := by
  unfold Token.symbol at hsymbol
  split at hsymbol
  · cases hnumber : numberOf t <;> simp_all [Except.toOption]
  all_goals cases hsymbol

/-! ## Operators -/

theorem exists_tier {op : Operator} (h : 1 ≤ op.binaryLevel ∧ op.binaryLevel ≤ 6) :
    ∃ tier : Tier, tier.level = op.binaryLevel := by
  obtain ⟨hleast, hmost⟩ := h
  cases hlevel : op.binaryLevel with
  | zero => omega
  | succ n =>
    match n with
    | 0 => exact ⟨.conjunction, rfl⟩
    | 1 => exact ⟨.disjunction, rfl⟩
    | 2 => exact ⟨.equality, rfl⟩
    | 3 => exact ⟨.order, rfl⟩
    | 4 => exact ⟨.sum, rfl⟩
    | 5 => exact ⟨.product, rfl⟩
    | n + 6 => omega

/-- The tokens that write an operator are read as it. -/
theorem operator?_of_kinds {tier : Tier} {op : Operator} {us more : List Token}
    (hop : tier.level = op.binaryLevel) (hkinds : us.map (·.kind) = op.kinds)
    (hmore : kindAt more ≠ some .equal) :
    ∃ t us', us = t :: us' ∧
      tier.operator? t.kind (kindAt (us' ++ more)) = some (op, us'.length) := by
  cases op <;> cases tier <;> cases hop <;>
    first
    | (obtain ⟨t, us', rfl, hfirst, hrest⟩ := List.map_eq_cons_iff.mp hkinds
       obtain rfl := List.map_eq_nil_iff.mp hrest
       exact ⟨t, [], rfl, by simp [Tier.operator?, hfirst, hmore]⟩)
    | (obtain ⟨t, us', rfl, hfirst, hrest⟩ := List.map_eq_cons_iff.mp hkinds
       obtain ⟨u, us'', rfl, hsecond, hrest⟩ := List.map_eq_cons_iff.mp hrest
       obtain rfl := List.map_eq_nil_iff.mp hrest
       exact ⟨t, [u], rfl, by simp [Tier.operator?, hfirst, hsecond]⟩)

theorem kindAt_of_kinds {op : Operator} {us : List Token} (hkinds : us.map (·.kind) = op.kinds)
    (more : List Token) : kindAt (us ++ more) = op.kinds.head? := by
  cases us with
  | nil => cases op <;> cases hkinds
  | cons t us => rw [← hkinds]; rfl

/-! ## What may follow -/

theorem Follow.of_kindAt {e : Node} {rest : List Token} (hplus : kindAt rest ≠ some .plus)
    (hminus : kindAt rest ≠ some .minus) (hequal : kindAt rest ≠ some .equal) : Follow e rest := by
  refine ⟨?_, fun _ => hequal⟩
  rintro - sign (rfl | rfl) hsign
  · exact absurd hsign hplus
  · exact absurd hsign hminus

theorem Follow.right {op : Operator} {a b : Node} {rest : List Token} (hb : b.WellBuilt)
    (h : Follow (.binary op a b) rest) : Follow b rest :=
  ⟨h.step, fun hlast => h.equal (by rwa [Node.lastKind_binary hb.symbols_ne_nil])⟩

theorem Follow.operand {op : Operator} {a : Node} {rest : List Token} (ha : a.WellBuilt)
    (hop : op.unaryLevel = 9) (h : Follow (.unary op a) rest) : Follow a rest := by
  obtain ⟨htrailing, hstep, -⟩ := Node.isTrailing_of_leading hop
  refine ⟨fun hname => h.step (by simp [Node.endsInName, htrailing, hstep, hname]), fun hlast => ?_⟩
  exact h.equal (by rwa [Node.lastKind_leading htrailing ha.symbols_ne_nil])

/-- The binary operators that start with a sign or an equals sign. -/
theorem operator_of_head {op : Operator} (hloose : 1 ≤ op.binaryLevel ∧ op.binaryLevel ≤ 6) :
    (op.kinds.head? = some .plus → op = .add) ∧ (op.kinds.head? = some .minus → op = .sub) ∧
      (op.kinds.head? = some .equal → op = .equal) := by
  cases op <;> simp_all [Operator.kinds, Operator.binaryLevel]

/-- The operator and the right operand of an operation without clashes may follow the left
    operand. -/
theorem Follow.left {op : Operator} {a b : Node} {us vs rest : List Token}
    (hloose : 1 ≤ op.binaryLevel ∧ op.binaryLevel ≤ 6)
    (happart : (Node.binary op a b).isClashFree = true) (hb : b.WellBuilt)
    (hus : us.map (·.kind) = op.kinds) (hvs : Writes vs b.symbols) :
    Follow a (us ++ (vs ++ rest)) := by
  obtain ⟨kind, hfirst, -⟩ := hb.opens
  have hright : kindAt (vs ++ rest) = b.firstKind := by rw [hvs.kindAt hfirst, hfirst]
  obtain ⟨hadd, hsub, hcompare⟩ := operator_of_head hloose
  rw [← kindAt_of_kinds hus (vs ++ rest)] at hadd hsub hcompare
  -- A sign is the whole operator, so what stands behind it is the right operand.
  have hbehind {sign : Token.Kind} (hkinds : op.kinds = [sign]) :
      kindAt (us ++ (vs ++ rest)).tail = b.firstKind := by
    obtain ⟨t, rfl, -⟩ := List.map_eq_singleton_iff.mp (hus.trans hkinds)
    exact hright
  refine ⟨?_, ?_⟩
  · rintro hname sign (rfl | rfl) hsign hnext
    · obtain rfl := hadd hsign
      rw [hbehind rfl] at hnext
      simp [Node.isClashFree, hname, hnext] at happart
    · obtain rfl := hsub hsign
      rw [hbehind rfl] at hnext
      simp [Node.isClashFree, hname, hnext] at happart
  · intro hlast hequal
    obtain rfl := hcompare hequal
    simp [Node.isClashFree, hlast] at happart

/-- No expression starts with an equals sign. -/
theorem kindAt_ne_equal {e : Node} {used : List Token} (he : e.WellBuilt)
    (hused : Writes used e.symbols) (rest : List Token) : kindAt (used ++ rest) ≠ some .equal := by
  obtain ⟨kind, hfirst, hopening⟩ := he.opens
  rw [hused.kindAt hfirst]
  intro h
  cases h
  cases hopening

/-! ## From tight rules to loose ones -/

section Climbing

variable {used : List Token} {e : Node}

/-- By the rules of a level, `e` is read from `used`, and what extends it follows. -/
def Chains (used : List Token) (e : Node) (tier : Tier) : Prop :=
  ∀ rest e' rest', Follow e rest → joint rest ≤ tier.level →
    Derives (.extend tier e) rest e' rest' → Derives (.chain tier) (used ++ rest) e' rest'

/-- `e` is read from `used`, and the factorials of it follow. -/
def Repeats (used : List Token) (e : Node) : Prop :=
  ∀ rest e' rest', Follow e rest → Derives (.factorials e) rest e' rest' →
    Derives .repeated (used ++ rest) e' rest'

/-- `e` is read from `used` as a power, or as what binds tighter. -/
def Raises (used : List Token) (e : Node) : Prop :=
  ∀ rest, Follow e rest → joint rest < 7 → Derives .power (used ++ rest) e rest

/-- `e` is read from `used` as a function of one operand, or as what binds tighter. -/
def Applies (used : List Token) (e : Node) : Prop :=
  ∀ rest, Follow e rest → Derives .unary (used ++ rest) e rest

/-- By every rule of its level or a looser one, `e` is read from `used`. -/
structure Readable (used : List Token) (e : Node) : Prop where
  unary : 9 ≤ e.level → Applies used e
  repeated : 8 ≤ e.level → Repeats used e
  power : 7 ≤ e.level → Raises used e
  chain : ∀ {tier : Tier}, tier.level ≤ e.level → Chains used e tier

theorem Applies.repeats (h : Applies used e) : Repeats used e :=
  fun _ _ _ hfollow hmore => .repeated (h _ hfollow) hmore

theorem Repeats.raises (h : Repeats used e) : Raises used e := by
  intro rest hfollow hjoint
  refine .powerStop (h _ _ _ hfollow (.factorialsStop ?_)) ?_
  · intro hfactorial
    rw [joint_eq_eight.mpr hfactorial] at hjoint
    omega
  · intro hcaret
    rw [joint_of_caret hcaret] at hjoint
    omega

theorem Raises.chains (h : Raises used e) : Chains used e .product := by
  intro rest e' rest' hfollow hjoint hmore
  exact .chain (.operandPower rfl (h rest hfollow (Nat.lt_succ_of_le hjoint))) hmore

theorem Chains.looser {tier inner : Tier} (hbelow : tier.tighter? = some inner)
    (h : Chains used e inner) : Chains used e tier := by
  intro rest e' rest' hfollow hjoint hmore
  have hlevel := Tier.level_of_tighter hbelow
  have hstop : Derives (.extend inner e) rest e rest :=
    .extendStop (operatorAt?_eq_none (by omega))
  exact .chain (.operandChain hbelow (h _ _ _ hfollow (by omega) hstop)) hmore

theorem Tier.eq_of_level {tier inner : Tier} (h : tier.level = inner.level) : tier = inner := by
  cases tier <;> cases inner <;> first | rfl | cases h

theorem Chains.loosen {tier inner : Tier} (h : Chains used e inner)
    (hle : tier.level ≤ inner.level) : Chains used e tier := by
  obtain ⟨distance, hdistance⟩ := Nat.le.dest hle
  induction distance generalizing tier with
  | zero => exact Tier.eq_of_level hdistance ▸ h
  | succ distance ih =>
    have hmost := inner.level_bounds.2
    cases hbelow : tier.tighter? with
    | none =>
      rw [Tier.level_of_tightest hbelow] at hdistance
      omega
    | some next =>
      have hlevel := Tier.level_of_tighter hbelow
      have hnext : Chains used e next := ih (by omega) (by omega)
      exact hnext.looser hbelow

theorem Chains.readable {tier : Tier} (h : Chains used e tier) (hlevel : e.level = tier.level) :
    Readable used e := by
  have hmost := tier.level_bounds.2
  refine ⟨?_, ?_, ?_, fun hle => h.loosen (hlevel ▸ hle)⟩ <;> intro <;> omega

theorem Raises.readable (h : Raises used e) (hlevel : e.level = 7) : Readable used e := by
  refine ⟨?_, ?_, fun _ => h, fun _ => h.chains.loosen (Tier.level_bounds _).2⟩ <;> intro <;> omega

theorem Repeats.readable (h : Repeats used e) (hlevel : e.level = 8) : Readable used e := by
  refine ⟨?_, fun _ => h, fun _ => h.raises, fun _ => ?_⟩
  · intro
    omega
  · exact h.raises.chains.loosen (Tier.level_bounds _).2

theorem Applies.readable (h : Applies used e) : Readable used e :=
  ⟨fun _ => h, fun _ => h.repeats, fun _ => h.repeats.raises,
    fun _ => h.repeats.raises.chains.loosen (Tier.level_bounds _).2⟩

/-- An operand of a level is read from `used` if it binds tighter than the level. -/
theorem Readable.operand (h : Readable used e) {tier : Tier} (hlevel : tier.level < e.level)
    {rest : List Token} (hfollow : Follow e rest) (hjoint : joint rest ≤ tier.level) :
    Derives (.operand tier) (used ++ rest) e rest := by
  cases hbelow : tier.tighter? with
  | none =>
    have htightest := Tier.level_of_tightest hbelow
    exact .operandPower hbelow (h.power (by omega) _ hfollow (by omega))
  | some inner =>
    have hinner := Tier.level_of_tighter hbelow
    have hstop : Derives (.extend inner e) rest e rest :=
      .extendStop (operatorAt?_eq_none (by omega))
    exact .operandChain hbelow (h.chain (by omega) _ _ _ hfollow (by omega) hstop)

/-- A whole expression is read from `used` if no operator follows. -/
theorem Readable.expression (h : Readable used e) (hlevel : 1 ≤ e.level) {rest : List Token}
    (hfollow : Follow e rest) (hjoint : joint rest = 0) :
    Derives (.chain .conjunction) (used ++ rest) e rest := by
  have hstop : Derives (.extend .conjunction e) rest e rest :=
    .extendStop (operatorAt?_eq_none (by rw [hjoint]; decide))
  have hchain : Chains used e .conjunction := h.chain hlevel
  exact hchain _ _ _ hfollow (Nat.le_of_lt_succ (by rw [hjoint]; decide)) hstop

end Climbing

/-! ## Expressions -/

/-- A value that no step of a variable starts with is read as such. -/
theorem applies_value {used : List Token} {v : Node}
    (hstep : ∀ rest, Follow (.value v) rest → stepAt? (used ++ rest) = none)
    (hsingle : ∀ rest, Derives .single (used ++ rest) v rest) : Applies used (.value v) := by
  intro rest hfollow
  exact .unaryAtom (.atomSingle (hstep rest hfollow) (hsingle rest))

/-- A step of a variable is a name in front of two signs, or two signs in front of a name. -/
theorem stepAt?_eq_none {t : Token} {ts : List Token}
    (hname : t.kind = .identifier → ∀ {sign}, sign = .plus ∨ sign = .minus →
      kindAt ts = some sign → kindAt ts.tail ≠ some sign)
    (hsign : t.kind = .plus ∨ t.kind = .minus → kindAt ts = some t.kind →
      kindAt ts.tail ≠ some .identifier) : stepAt? (t :: ts) = none := by
  rcases ts with _ | ⟨b, _ | ⟨c, ts⟩⟩
  · rfl
  · rfl
  · rw [stepAt?, step?]
    split <;> simp_all

theorem stepAt?_plain {t : Token} {ts : List Token} (hname : t.kind ≠ .identifier)
    (hplus : t.kind ≠ .plus) (hminus : t.kind ≠ .minus) : stepAt? (t :: ts) = none := by
  refine stepAt?_eq_none (fun h => absurd h hname) ?_
  rintro (h | h)
  · exact absurd h hplus
  · exact absurd h hminus

/-- The tokens of a step of a variable are read as it. -/
theorem applies_step {used : List Token} {op : Operator} {id : Identifier}
    (hop : op.isStep = true) (hname : ':' ∉ id.name.toList)
    (h : Writes used (Node.unary op (.value (.identifier id))).symbols) :
    Applies used (.unary op (.value (.identifier id))) := by
  have hleaf {t : Token} (hsymbol : t.symbol = .text .identifier id.source)
      (hintact : t.isIntact = true) : identifierOf t = .ok id :=
    identifierOf_eq hsymbol hintact hname
  cases op <;> simp only [Operator.isStep, Bool.false_eq_true] at hop
  case preIncrement | preDecrement =>
    obtain ⟨a, b, c, rfl, ha, hb, hc, -, hintact⟩ := Writes.three_inv h
    have ha := kind_of_symbol ha
    have hb := kind_of_symbol hb
    intro _ _
    refine .unaryAtom (.atomStep ?_ (hleaf hc hintact))
    simp [step?, ha, hb, kind_of_symbol hc, Symbol.kind]
  case postIncrement | postDecrement =>
    obtain ⟨a, b, c, rfl, ha, hb, hc, hintact, -⟩ := Writes.three_inv h
    have hb := kind_of_symbol hb
    have hc := kind_of_symbol hc
    intro _ _
    refine .unaryAtom (.atomStep ?_ (hleaf ha hintact))
    simp [step?, kind_of_symbol ha, hb, hc, Symbol.kind]

/-- Behind a minus sign in front of a negation no name follows. -/
theorem kindAt_tail_ne_identifier {a : Node} {us rest : List Token} (ha : a.WellBuilt)
    (hlevel : 9 ≤ a.level) (happart : (Node.unary .negate a).isClashFree = true)
    (hus : Writes us a.symbols) (hminus : kindAt (us ++ rest) = some .minus) :
    kindAt (us ++ rest).tail ≠ some .identifier := by
  cases ha with
  | number | text | identifier | group =>
    obtain ⟨t, us, rfl, hsymbol, -⟩ := hus.cons_inv
    have hkind := kind_of_symbol hsymbol
    simp [hkind, Symbol.kind] at hminus
  | @step op _ hop =>
    cases op <;> simp only [Operator.isStep, Bool.false_eq_true] at hop
    all_goals
      obtain ⟨x, y, z, rfl, hx, hy, -⟩ := Writes.three_inv hus
      have hx := kind_of_symbol hx
      have hy := kind_of_symbol hy
      simp_all [Symbol.kind]
  | factorial => simp [Node.level, Operator.unaryLevel] at hlevel
  | @leading op a hop ha =>
    obtain ⟨t, us, rfl, hleading, hoperand⟩ := hus.leading_inv hop
    have hkind : t.kind = .minus := by simpa using hminus
    rw [hkind] at hleading
    cases hleading
    obtain ⟨first, hfirst, -⟩ := ha.opens
    have hnext : kindAt (us ++ rest) = some first := hoperand.kindAt hfirst rest
    simpa [Node.isClashFree, hfirst, hnext] using happart
  | power => simp [Node.level, Operator.binaryLevel] at hlevel
  | operation hloose =>
    have hlevel : 9 ≤ _ := hlevel
    simp only [Node.level] at hlevel
    omega

/-- A leading operator in front of its operand does not start a step of a variable. -/
theorem stepAt?_leading {op : Operator} {a : Node} {t : Token} {us : List Token}
    (ht : leadingOperator? t.kind = some op) (ha : a.WellBuilt) (hlevel : 9 ≤ a.level)
    (happart : (Node.unary op a).isClashFree = true) (hus : Writes us a.symbols)
    (rest : List Token) : stepAt? (t :: (us ++ rest)) = none := by
  refine stepAt?_eq_none (fun hname => ?_) ?_
  · rw [hname] at ht
    cases ht
  · rintro (hplus | hminus) hfirst
    · rw [hplus] at ht
      cases ht
    · rw [hminus] at ht hfirst
      cases ht
      exact kindAt_tail_ne_identifier ha hlevel happart hus hfirst

/-- A well-built expression is read from the tokens that write it. -/
theorem readable_of_wellBuilt {e : Node} (h : e.WellBuilt) {used : List Token}
    (hused : Writes used e.symbols) : Readable used e := by
  induction h generalizing used with
  | number =>
    obtain ⟨t, rfl, hsymbol, -⟩ := hused.single_inv
    have hkind : t.kind = .number := kind_of_symbol hsymbol
    refine Applies.readable (applies_value (fun rest _ => ?_) fun rest => ?_)
    · exact stepAt?_plain (by simp [hkind]) (by simp [hkind]) (by simp [hkind])
    · exact .number hkind (numberOf_eq hsymbol)
  | @text s =>
    obtain ⟨t, rfl, hsymbol, hintact⟩ := hused.single_inv
    have hkind : t.kind = .string := kind_of_symbol hsymbol
    refine Applies.readable (applies_value (fun rest _ => ?_) fun rest => ?_)
    · exact stepAt?_plain (by simp [hkind]) (by simp [hkind]) (by simp [hkind])
    · have htext : textOf .text .text t = .text s := by
        simp only [textOf, text_of_intact hsymbol rfl hintact]
      exact htext ▸ .string hkind
  | identifier hname =>
    obtain ⟨t, rfl, hsymbol, hintact⟩ := hused.single_inv
    have hkind : t.kind = .identifier := kind_of_symbol hsymbol
    refine Applies.readable (applies_value (fun rest hfollow => ?_) fun rest => ?_)
    · exact stepAt?_eq_none (fun _ => hfollow.step rfl) fun hsign => by simp [hkind] at hsign
    · exact .identifier hkind (identifierOf_eq hsymbol hintact hname)
  | @group inner hinner ih =>
    obtain ⟨t, us, rfl, hsymbol, -, hus⟩ := hused.cons_inv
    obtain ⟨vs, ws, rfl, hvs, hws⟩ := hus.append_inv
    obtain ⟨close, rfl, hclose⟩ := hws.mark_inv
    have hkind : t.kind = .lparen := kind_of_symbol hsymbol
    refine Applies.readable (applies_value (fun rest _ => ?_) fun rest => ?_)
    · exact stepAt?_plain (by simp [hkind]) (by simp [hkind]) (by simp [hkind])
    · have hfollow : Follow inner (close :: rest) :=
        .of_kindAt (by simp [hclose]) (by simp [hclose]) (by simp [hclose])
      have hcontent := (ih hvs).expression hinner.one_le_level hfollow (by simp [joint, hclose])
      refine .group hkind ?_ hclose
      simpa using hcontent
  | step hop hname => exact (applies_step hop hname hused).readable
  | @factorial a ha hlevel ih =>
    obtain ⟨us, t, rfl, hus, ht⟩ := hused.factorial_inv
    have hrepeats : Repeats (us ++ [t]) (.unary .factorial a) := by
      intro rest e' rest' hfollow hmore
      have hequal := hfollow.equal (Node.lastKind_factorial a)
      have hfollow : Follow a (t :: rest) :=
        .of_kindAt (by simp [ht]) (by simp [ht]) (by simp [ht])
      have hexclam : factorialAt (t :: rest) := ⟨by simp [ht], hequal⟩
      simpa using (ih hus).repeated hlevel _ _ _ hfollow (.factorialsStep hexclam hmore)
    exact hrepeats.readable rfl
  | @leading op a hop ha hlevel happart ih =>
    obtain ⟨t, us, rfl, hleading, hus⟩ := hused.leading_inv hop
    have happlies : Applies (t :: us) (.unary op a) := by
      intro rest hfollow
      have hstep := stepAt?_leading hleading ha hlevel happart hus rest
      exact .unaryLeading hleading hstep ((ih hus).unary hlevel _ (hfollow.operand ha hop))
    exact happlies.readable
  | @power a b ha hb hleft hright iha ihb =>
    obtain ⟨us, os, ws, rfl, hus, hos, hws⟩ := hused.binary_inv
    obtain ⟨t, rfl, ht⟩ := List.map_eq_singleton_iff.mp hos
    have hraises : Raises (us ++ ([t] ++ ws)) (.binary .pow a b) := by
      intro rest hfollow hjoint
      have hfollow' : Follow a (t :: (ws ++ rest)) :=
        .of_kindAt (by simp [ht]) (by simp [ht]) (by simp [ht])
      have hstop : Derives (.factorials a) (t :: (ws ++ rest)) a (t :: (ws ++ rest)) :=
        .factorialsStop fun h => by simp [factorialAt, ht] at h
      have hbase := (iha hus).repeated hleft _ _ _ hfollow' hstop
      have hexponent := (ihb hws).power hright _ (hfollow.right hb) hjoint
      simpa using Derives.powerStep hbase ht hexponent
    exact hraises.readable rfl
  | @operation op a b hloose ha hb hleft hright happart iha ihb =>
    obtain ⟨us, os, ws, rfl, hus, hos, hws⟩ := hused.binary_inv
    obtain ⟨tier, htier⟩ := exists_tier hloose
    have hchains : Chains (us ++ (os ++ ws)) (.binary op a b) tier := by
      intro rest e' rest' hfollow hjoint hmore
      have hequal := kindAt_ne_equal hb hws rest
      have hfollow' : Follow a (os ++ (ws ++ rest)) :=
        .left hloose happart hb hos hws
      obtain ⟨t, os, rfl, hop⟩ := operator?_of_kinds htier hos hequal
      have hright := (ihb hws).operand (htier ▸ hright) (hfollow.right hb) hjoint
      have hnext : Derives (.extend tier a) (t :: (os ++ (ws ++ rest))) e' rest' :=
        .extendStep hop (by simpa using hright) hmore
      have hjoint' : joint (t :: (os ++ (ws ++ rest))) ≤ tier.level :=
        Nat.le_of_eq (joint_of_operatorAt? hop)
      simpa using (iha hus).chain (htier ▸ hleft) _ _ _ hfollow' hjoint' hnext
    exact hchains.readable htier.symm

/-! ## No assignment in an expression -/

/-- Behind the name of a variable, the tokens would make an assignment to it. -/
def Assigns (ts : List Token) : Prop :=
  (kindAt ts = some .equal ∧ kindAt ts.tail ≠ some .equal) ∨
    (kindAt ts.tail = some .equal ∧ ((kindAt ts).bind compoundAssignment?).isSome = true)

theorem assigns_of_assignmentAt? {ts : List Token} {op : Operator} {more : Nat}
    (h : assignmentAt? ts = some (op, more)) : kindAt ts = some .identifier ∧ Assigns ts.tail := by
  obtain ⟨a, b, c, us, rfl, hname, hform⟩ := assignmentAt?_eq_some h
  refine ⟨congrArg some hname, ?_⟩
  rcases hform with ⟨hequal, hplain, -, -⟩ | ⟨hequal, hcompound, -⟩
  · exact .inl ⟨congrArg some hequal, by simpa using hplain⟩
  · exact .inr ⟨congrArg some hequal, by simp [hcompound]⟩

/-- A binary operator is one token that is no equals sign, or two tokens that are no
    compound assignment. -/
theorem kinds_of_binary {op : Operator} (h : 1 ≤ op.binaryLevel) :
    (∃ kind, op.kinds = [kind] ∧ kind ≠ .equal) ∨
      ∃ kind, op.kinds = [kind, .equal] ∧ compoundAssignment? kind = none := by
  cases op <;>
    first
    | exact absurd h (by decide)
    | exact .inl ⟨_, rfl, by decide⟩
    | exact .inr ⟨_, rfl, rfl⟩

/-- A binary operator in front of its operand does not make an assignment. -/
theorem not_assigns_operator {op : Operator} {us more : List Token} (hop : 1 ≤ op.binaryLevel)
    (hkinds : us.map (·.kind) = op.kinds) (hmore : kindAt more ≠ some .equal) :
    ¬ Assigns (us ++ more) := by
  rcases kinds_of_binary hop with ⟨kind, hone, hplain⟩ | ⟨kind, htwo, hplain⟩
  · obtain ⟨t, rfl, rfl⟩ := List.map_eq_singleton_iff.mp (hkinds.trans hone)
    simp [Assigns, hplain, hmore]
  · obtain ⟨t, us, rfl, rfl, hus⟩ := List.map_eq_cons_iff.mp (hkinds.trans htwo)
    obtain ⟨u, rfl, hu⟩ := List.map_eq_singleton_iff.mp hus
    simp [Assigns, hu, hplain]

theorem not_assigns_binary {op : Operator} {a b : Node} {used rest : List Token} (ha : a.WellBuilt)
    (hb : b.WellBuilt) (hop : 1 ≤ op.binaryLevel)
    (hused : Writes used (Node.binary op a b).symbols) (hname : kindAt used = some .identifier)
    (ih : ∀ {us vs : List Token}, Writes us a.symbols → kindAt us = some .identifier →
      ¬ Assigns vs → ¬ Assigns (us.tail ++ vs)) :
    ¬ Assigns (used.tail ++ rest) := by
  obtain ⟨us, os, ws, rfl, hus, hos, hws⟩ := hused.binary_inv
  obtain ⟨kind, hfirst, -⟩ := ha.opens
  obtain ⟨t, us, rfl, -⟩ := kindAt_eq_some (hus.kindAt_self hfirst)
  have hoperator : ¬ Assigns (os ++ (ws ++ rest)) :=
    not_assigns_operator hop hos (kindAt_ne_equal hb hws rest)
  simpa using ih hus hname hoperator

/-- An expression that starts with a name does not go on as an assignment to it. -/
theorem not_assigns_of_wellBuilt {e : Node} (h : e.WellBuilt) {used rest : List Token}
    (hused : Writes used e.symbols) (hname : kindAt used = some .identifier)
    (hrest : ¬ Assigns rest) : ¬ Assigns (used.tail ++ rest) := by
  induction h generalizing used rest with
  | number | text | group =>
    obtain ⟨t, us, rfl, hsymbol, -⟩ := hused.cons_inv
    have hkind := kind_of_symbol hsymbol
    simp [hkind, Symbol.kind] at hname
  | identifier =>
    obtain ⟨t, rfl, -⟩ := hused.single_inv
    exact hrest
  | @step op _ hop =>
    cases op <;> simp only [Operator.isStep, Bool.false_eq_true] at hop
    all_goals
      obtain ⟨x, y, z, rfl, hx, hy, hz, -⟩ := Writes.three_inv hused
      have hx := kind_of_symbol hx
      have hy := kind_of_symbol hy
      have hz := kind_of_symbol hz
      simp_all [Symbol.kind, Assigns]
  | @factorial a ha _ ih =>
    obtain ⟨us, x, rfl, hus, hx⟩ := hused.factorial_inv
    obtain ⟨kind, hfirst, -⟩ := ha.opens
    obtain ⟨t, us, rfl, -⟩ := kindAt_eq_some (hus.kindAt_self hfirst)
    have hrest : ¬ Assigns (x :: rest) := by simp [Assigns, hx, compoundAssignment?]
    simpa using ih hus hname hrest
  | leading hop =>
    obtain ⟨t, us, rfl, hleading, -⟩ := hused.leading_inv hop
    have hname : t.kind = .identifier := by simpa using hname
    rw [hname] at hleading
    cases hleading
  | @power a b ha hb _ _ ih =>
    exact not_assigns_binary ha hb (by decide) hused hname ih
  | @operation op a b hloose ha hb _ _ _ ih =>
    exact not_assigns_binary ha hb hloose.1 hused hname ih

end Parse

end Yolol

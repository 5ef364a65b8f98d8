-- SUMMARY: Comparisons with `==` and `!=`, and the factorials in front of them.
import Yolol.Proofs.Soundness

/-!
# Comparisons

`==`, `!=` and the factorial share their tokens, and one token of lookahead tells them
apart. What an operand of a comparison reads does not change when an operator follows it,
except in one case: the last `!` of an operand is no factorial in front of `==`. It makes
`!=` with the first `=`, and no operand follows.
-/

namespace Yolol.Parse

-- ---------------------------------------------------------------------------
-- What follows an operand
-- ---------------------------------------------------------------------------

/-- What follows an operand of a comparison: nothing, or what starts like `==` or is `!=`. -/
def EndsOperand (ts : List Token) : Prop :=
  ts = [] ∨ kindAt ts = some .equal ∨ (kindAt ts = some .exclam ∧ kindAt ts.tail = some .equal)

namespace EndsOperand

variable {ts : List Token}

theorem kind (h : EndsOperand ts) {kind : Token.Kind} (hkind : kindAt ts = some kind) :
    kind = .equal ∨ kind = .exclam := by
  rcases h with rfl | h | ⟨h, -⟩
  · cases hkind
  · exact .inl (Option.some.inj (hkind.symm.trans h))
  · exact .inr (Option.some.inj (hkind.symm.trans h))

theorem not_factorialAt (h : EndsOperand ts) : ¬ factorialAt ts := by
  rintro ⟨hexclam, hplain⟩
  rcases h with rfl | hequal | ⟨-, hequal⟩
  · cases hexclam
  · simp [hequal] at hexclam
  · exact hplain hequal

/-- Only comparisons start with the tokens of their operators. -/
theorem operatorAt?_eq_none (h : EndsOperand ts) {tier : Tier} (htier : tier ≠ .equality) :
    tier.operatorAt? ts = none := by
  cases ts with
  | nil => rfl
  | cons t ts =>
    rcases h.kind rfl with hkind | hkind <;> cases tier <;>
      simp_all [Tier.operatorAt?, Tier.operator?]

/-- No operand starts with an operator of a comparison. -/
theorem not_opensOperand (h : EndsOperand ts) : ¬ opensOperand ts := by
  intro hopens
  obtain ⟨kind, hkind, hopening⟩ := kindAt_of_opensOperand hopens
  rcases h.kind hkind with rfl | rfl <;> cases hopening

/-- No step of a variable contains such tokens. -/
theorem stepAt?_append (h : EndsOperand ts) (us : List Token) :
    stepAt? (us ++ ts) = stepAt? us := by
  have hnone : ∀ t ∈ ts.head?, t.kind ≠ .identifier ∧ t.kind ≠ .plus ∧ t.kind ≠ .minus := by
    intro t ht
    have hkind : kindAt ts = some t.kind := by simp [kindAt, Option.mem_def.mp ht]
    rcases h.kind hkind with hkind | hkind <;> simp [hkind]
  match us, ts, hnone with
  | _, [], _ => rw [List.append_nil]
  | [], t :: ts, hnone | [_], t :: ts, hnone | [_, _], t :: ts, hnone =>
    obtain ⟨hname, hplus, hminus⟩ := hnone t rfl
    rcases ts with _ | ⟨u, _ | ⟨v, ts⟩⟩ <;> simp [stepAt?, step?, hname, hplus, hminus]
  | _ :: _ :: _ :: _, _, _ => rfl

end EndsOperand

/-- Looking ahead does not see what stands behind other tokens. -/
theorem kindAt_append {us : List Token} (h : us ≠ []) (vs ws : List Token) :
    kindAt (us ++ vs) = kindAt (us ++ ws) := by
  cases us with
  | nil => exact absurd rfl h
  | cons => rfl

/-- Except for comparisons, the first token alone tells whether there is an operator. -/
theorem operator?_eq_none_iff {tier : Tier} (htier : tier ≠ .equality) (first : Token.Kind)
    (second second' : Option Token.Kind) :
    tier.operator? first second = none ↔ tier.operator? first second' = none := by
  cases tier <;> cases first <;> simp_all [Tier.operator?]

/-- The tokens of an operator, with other tokens behind it that start alike. -/
theorem operator?_take {tier : Tier} {first : Token.Kind} {ts us : List Token} {op : Operator}
    {more : Nat} (h : tier.operator? first (kindAt ts) = some (op, more))
    (hus : kindAt us = kindAt (ts.drop more)) :
    (ts.take more ++ us).drop more = us ∧
      tier.operator? first (kindAt (ts.take more ++ us)) = some (op, more) := by
  rcases operator?_kinds h with ⟨-, rfl⟩ | ⟨-, hsecond, rfl⟩
  · exact ⟨rfl, by simpa [hus] using h⟩
  · obtain ⟨t, ts, rfl, -⟩ := kindAt_eq_some hsecond
    exact ⟨rfl, h⟩

-- ---------------------------------------------------------------------------
-- Operands with other tokens behind them
-- ---------------------------------------------------------------------------

/-- The levels that take the comparisons of their operands. -/
def Tier.isLoose : Tier → Bool
  | .conjunction | .disjunction | .equality => true
  | .order | .sum | .product => false

/-- The rules that take a comparison that follows. -/
def Rule.isLoose : Rule → Bool
  | .chain tier | .extend tier _ => tier.isLoose
  | .operand tier => tier.isLoose && tier != .equality
  | _ => false

/-- The tokens start with one that has nothing to do with comparisons. -/
def Calm (ts : List Token) : Prop :=
  ∃ kind, kindAt ts = some kind ∧ kind ≠ .equal ∧ kind ≠ .exclam

/-- `Gives w p r e g e'`: a rule reads all of `p` but `r` as `e`, and with `w` behind it reads all
    but `g` as `e'`. This is the same, unless `p` ends in a `!` that is taken as a factorial
    and that would be `!=` with the `=` in front of `w`. -/
inductive Gives (w : List Token) : List Token → List Token → Node → List Token → Node → Prop
  | same {p r e} : Gives w p r e r e
  | mark {p e x e'} (equal : kindAt w = some .equal) (last : p.getLast? = some x)
      (exclam : x.kind = .exclam) : Gives w p [] e [x] e'

namespace Gives

variable {w p r g : List Token} {e e' : Node}

theorem prepend (h : Gives w p r e g e') (front : List Token) : Gives w (front ++ p) r e g e' := by
  cases h with
  | same => exact .same
  | mark hequal hlast hexclam =>
    exact .mark hequal (by simp [List.getLast?_append, hlast]) hexclam

theorem of_suffix {q : List Token} (h : Gives w q r e g e') (hsuffix : q <:+ p) :
    Gives w p r e g e' := by
  obtain ⟨front, rfl⟩ := hsuffix
  exact h.prepend front

theorem map (h : Gives w p r e g e') (f : Node → Node) : Gives w p r (f e) g (f e') := by
  cases h with
  | same => exact .same
  | mark hequal hlast hexclam => exact .mark hequal hlast hexclam

end Gives

/-- `Rereads rule v w ts e r`: the tokens `ts`, which the rule reads as `e` up to `r` in front of
    `v`, are read by it with `w` in place of `v`. -/
def Rereads (rule : Rule) (v w ts : List Token) (e : Node) (r : List Token) : Prop :=
  ∃ p g e', ts = p ++ v ∧ r <:+ p ∧ Derives rule (p ++ w) e' (g ++ w) ∧ Gives w p r e g e'

section Reread

variable {v w : List Token}

theorem Rereads.same {rule : Rule} {e : Node} {r : List Token} (front : List Token)
    (h : Derives rule (front ++ (r ++ w)) e (r ++ w)) :
    Rereads rule v w (front ++ (r ++ v)) e r :=
  ⟨front ++ r, r, e, (List.append_assoc ..).symm, List.suffix_append front r,
    (List.append_assoc ..).symm ▸ h, .same⟩

/-- A rule that only takes some tokens in front of what another rule reads. -/
theorem Rereads.imp {inner rule : Rule} {ts r : List Token} {e : Node}
    (h : Rereads inner v w ts e r) (front : List Token) (f : Node → Node)
    (hrule : ∀ {p e' rest}, ts = p ++ v → Derives inner (p ++ w) e' rest →
      Derives rule (front ++ (p ++ w)) (f e') rest) :
    Rereads rule v w (front ++ ts) (f e) r := by
  obtain ⟨p, g, e', rfl, hsuffix, hread, hgives⟩ := h
  refine ⟨front ++ p, g, f e', (List.append_assoc ..).symm,
    hsuffix.trans (List.suffix_append front p), ?_, (hgives.map f).prepend front⟩
  rw [List.append_assoc]
  exact hrule rfl hread

theorem not_factorialAt_append (hplain : kindAt v ≠ some .equal)
    (hw : EndsOperand w) {r : List Token} (h : ¬ factorialAt (r ++ v)) :
    ¬ factorialAt (r ++ w) := by
  match r, h with
  | [], _ => exact hw.not_factorialAt
  | [t], h => exact fun hexclam => h ⟨hexclam.1, hplain⟩
  | _ :: _ :: _, h => exact h

theorem kindAt_append_ne_caret (hw : EndsOperand w) {r : List Token}
    (h : kindAt (r ++ v) ≠ some .caret) : kindAt (r ++ w) ≠ some .caret := by
  cases r with
  | nil =>
    intro hcaret
    rcases hw.kind hcaret with hkind | hkind <;> cases hkind
  | cons => exact h

/-- Where no operator of a level follows, none does with other tokens behind. -/
theorem operatorAt?_append (hw : EndsOperand w) {tier : Tier} {r : List Token}
    (hcalm : tier.isLoose = true → Calm r) (h : tier.operatorAt? (r ++ v) = none) :
    tier.operatorAt? (r ++ w) = none := by
  by_cases htier : tier = .equality
  · obtain ⟨kind, hkind, hequal, hexclam⟩ := hcalm (htier ▸ rfl)
    obtain ⟨t, r, rfl, rfl⟩ := kindAt_eq_some hkind
    subst htier
    simp only [List.cons_append, Tier.operatorAt?, Tier.operator?]
    split <;> simp_all
  · cases r with
    | nil => exact hw.operatorAt?_eq_none htier
    | cons t r => exact (operator?_eq_none_iff htier t.kind _ _).mp h

/-- Behind an operand that takes comparisons stands a looser operator, or what the whole chain
    leaves. -/
theorem calm_of_extend {tier : Tier} {left e : Node} {p r : List Token}
    (h : Derives (.extend tier left) (p ++ v) e (r ++ v)) (hsuffix : r <:+ p)
    (hcalm : tier.isLoose = true → Calm r) : (Rule.operand tier).isLoose = true → Calm p := by
  intro hloose
  obtain ⟨hloose, htier⟩ := by simpa [Rule.isLoose] using hloose
  have hcalm := hcalm hloose
  generalize hts : p ++ v = ts at h
  generalize hrest : r ++ v = rest at h
  cases h with
  | extendStop =>
    obtain rfl := List.append_cancel_right (hts.trans hrest.symm)
    exact hcalm
  | @extendStep _ _ t ts op more _ _ _ _ hoperator =>
    have hne : p ≠ [] := by
      rintro rfl
      obtain ⟨_, hkind, -⟩ := hcalm
      simp [List.suffix_nil.mp hsuffix] at hkind
    obtain ⟨u, p, rfl⟩ := List.exists_cons_of_ne_nil hne
    obtain ⟨rfl, -⟩ := List.cons.inj hts
    refine ⟨u.kind, rfl, ?_, ?_⟩ <;> intro hkind <;> cases tier <;>
      simp_all [Tier.operator?]

/-- An operand and the operators behind it. If the operand gives back a `!`, no operator follows
    it, and none can follow the `!`. -/
theorem rereads_extend {tier : Tier} (f : Node → Node) {ts : List Token} {a e : Node}
    {p r : List Token} (hcalm : tier.isLoose = true → Calm r)
    (hfirst : Rereads (.operand tier) v w ts a p) (hsuffix : r <:+ p)
    (hmore : ∃ g e', Derives (.extend tier (f a)) (p ++ w) e' (g ++ w) ∧ Gives w p r e g e') :
    ∃ q mid b g e', ts = q ++ v ∧ r <:+ q ∧ Derives (.operand tier) (q ++ w) b mid ∧
      Derives (.extend tier (f b)) mid e' (g ++ w) ∧ Gives w q r e g e' := by
  obtain ⟨q, g₁, b, rfl, hpq, hoperand, hgives⟩ := hfirst
  cases hgives with
  | same =>
    obtain ⟨g, e', hnext, hgives⟩ := hmore
    exact ⟨q, _, a, g, e', rfl, hsuffix.trans hpq, hoperand, hnext, hgives.of_suffix hpq⟩
  | @mark _ x _ hequal hlast hexclam =>
    obtain rfl := List.suffix_nil.mp hsuffix
    have htier : tier ≠ .equality := by
      rintro rfl
      obtain ⟨_, hkind, -⟩ := hcalm rfl
      cases hkind
    have hstop : tier.operatorAt? ([x] ++ w) = none := by
      have hmark : EndsOperand ([x] ++ w) := .inr (.inr ⟨congrArg some hexclam, hequal⟩)
      exact hmark.operatorAt?_eq_none htier
    exact ⟨q, _, b, [x], f b, rfl, List.nil_suffix, hoperand, .extendStop hstop,
      .mark hequal hlast hexclam⟩

/-- What a rule reads, it reads with other tokens behind it, unless the last of them is a `!`
    that makes `!=` then. -/
theorem Derives.rereads {rule : Rule} {ts rest : List Token} {e : Node}
    (h : Derives rule ts e rest) (hv : EndsOperand v) (hplain : kindAt v ≠ some .equal)
    (hw : EndsOperand w) {r : List Token} (hrest : rest = r ++ v)
    (hcalm : rule.isLoose = true → Calm r) : Rereads rule v w ts e r := by
  induction h generalizing r with
  | @chain tier ts left mid e rest hfirst hmore ihfirst ihmore =>
    obtain ⟨p, g, e', rfl, hsuffix, hmore', hgives⟩ := ihmore hrest hcalm
    have hfirst' := ihfirst rfl (calm_of_extend (hrest ▸ hmore) hsuffix hcalm)
    obtain ⟨q, _, b, g, e', rfl, hrq, hoperand, hnext, hgives⟩ :=
      rereads_extend id hcalm hfirst' hsuffix ⟨g, e', hmore', hgives⟩
    exact ⟨q, g, e', rfl, hrq, .chain hoperand hnext, hgives⟩
  | @operandChain tier inner ts e rest hbelow _ ih =>
    have hoperand := ih hrest fun hloose =>
      hcalm (by cases tier <;> cases hbelow <;> simp_all [Rule.isLoose, Tier.isLoose])
    exact hoperand.imp [] id fun _ h => .operandChain hbelow h
  | operandPower hbelow _ ih =>
    have hoperand := ih hrest (by simp [Rule.isLoose])
    exact hoperand.imp [] id fun _ h => .operandPower hbelow h
  | extendStop hstop =>
    subst hrest
    exact .same [] (.extendStop (operatorAt?_append hw hcalm hstop))
  | @extendStep tier left t ts op more right mid e rest hoperator hoperand hmore ihoperand ihmore =>
    obtain ⟨p, g, e', rfl, hsuffix, hmore', hgives⟩ := ihmore hrest hcalm
    have hoperand' := ihoperand rfl (calm_of_extend (hrest ▸ hmore) hsuffix hcalm)
    obtain ⟨q, _, b, g, e', hq, hrq, hoperand', hnext, hgives⟩ :=
      rereads_extend (.binary op left) hcalm hoperand' hsuffix ⟨g, e', hmore', hgives⟩
    -- The operand is not empty, so looking ahead from the operator stays within it.
    have hne : q ≠ [] := by
      rintro rfl
      have hopens : opensOperand (ts.drop more) := hoperand.opens
      exact hv.not_opensOperand (by simpa [hq] using hopens)
    have hkind : kindAt (q ++ w) = kindAt (ts.drop more) := hq ▸ kindAt_append hne w v
    obtain ⟨hdrop, hoperator'⟩ := operator?_take hoperator hkind
    refine ⟨t :: (ts.take more ++ q), g, e', ?_, ?_, ?_, hgives.prepend (t :: ts.take more)⟩
    · rw [List.cons_append, List.append_assoc, ← hq, List.take_append_drop]
    · exact hrq.trans (List.suffix_append (t :: ts.take more) q)
    · rw [List.cons_append, List.append_assoc]
      exact .extendStep hoperator' (hdrop.symm ▸ hoperand') hnext
  | powerStop _ hstop ih =>
    obtain ⟨p, g, e', rfl, hsuffix, hbase, hgives⟩ := ih hrest (by simp [Rule.isLoose])
    refine ⟨p, g, e', rfl, hsuffix, .powerStop hbase ?_, hgives⟩
    cases hgives with
    | same => exact kindAt_append_ne_caret hw (hrest ▸ hstop)
    | mark _ _ hexclam => simp [hexclam]
  | @powerStep ts base t mid exponent rest _ hcaret _ ihfirst ihnext =>
    obtain ⟨p, g, e', rfl, hsuffix, hnext, hgives⟩ := ihnext hrest (by simp [Rule.isLoose])
    obtain ⟨q, g', b, rfl, hpq, hfirst, hfirst'⟩ :=
      ihfirst (r := t :: p) rfl (by simp [Rule.isLoose])
    cases hfirst' with
    | same =>
      have hpq : p <:+ q := (List.suffix_cons t p).trans hpq
      exact ⟨q, g, _, rfl, hsuffix.trans hpq, .powerStep hfirst hcaret hnext,
        (hgives.map _).of_suffix hpq⟩
  | repeated _ hmore ihfirst ihmore =>
    obtain ⟨p, g, e', rfl, hsuffix, hmore', hgives⟩ := ihmore hrest (by simp [Rule.isLoose])
    obtain ⟨q, g', b, rfl, hpq, hfirst, hfirst'⟩ := ihfirst rfl (by simp [Rule.isLoose])
    cases hfirst' with
    | same =>
      exact ⟨q, g, e', rfl, hsuffix.trans hpq, .repeated hfirst hmore', hgives.of_suffix hpq⟩
    | @mark _ x _ hequal hlast hexclam =>
      obtain rfl := List.suffix_nil.mp hsuffix
      have hstop : ¬ factorialAt ([x] ++ w) := fun h => h.2 hequal
      exact ⟨q, [x], b, rfl, List.nil_suffix, .repeated hfirst (.factorialsStop hstop),
        .mark hequal hlast hexclam⟩
  | factorialsStop hstop =>
    subst hrest
    exact .same [] (.factorialsStop (not_factorialAt_append hplain hw hstop))
  | @factorialsStep operand t ts e rest hexclam _ ih =>
    obtain ⟨p, g, e', rfl, hsuffix, hnext, hgives⟩ := ih hrest (by simp [Rule.isLoose])
    by_cases hequal : kindAt (p ++ w) = some .equal
    · have hp : p = [] := by
        by_contra hne
        exact hexclam.2 (kindAt_append hne v w ▸ hequal)
      subst hp
      obtain rfl := List.suffix_nil.mp hsuffix
      exact ⟨[t], [t], operand, rfl, List.nil_suffix, .factorialsStop fun h => h.2 hequal,
        .mark hequal rfl (Option.some.inj hexclam.1)⟩
    · exact ⟨t :: p, g, e', rfl, hsuffix.trans (List.suffix_cons t p),
        .factorialsStep ⟨hexclam.1, hequal⟩ hnext, hgives.prepend [t]⟩
  | unaryAtom _ ih =>
    have hoperand := ih hrest (by simp [Rule.isLoose])
    exact hoperand.imp [] id fun _ h => .unaryAtom h
  | @unaryLeading t ts op e rest hoperator hstep _ ih =>
    have hoperand := ih hrest (by simp [Rule.isLoose])
    refine hoperand.imp [t] (.unary op) fun {p _ _} hts h => .unaryLeading hoperator ?_ h
    have hstep : stepAt? (t :: p ++ v) = none := by simpa [hts] using hstep
    show stepAt? (t :: p ++ w) = none
    rwa [hw.stepAt?_append, ← hv.stepAt?_append]
  | @atomStep a b c t ts op id hstep hname =>
    subst hrest
    exact .same [a, b, c] (.atomStep hstep hname)
  | atomSingle hstep _ ih =>
    have hvalue := ih hrest (by simp [Rule.isLoose])
    refine hvalue.imp [] .value fun {p _ _} hts h => .atomSingle ?_ h
    rw [hts] at hstep
    rwa [List.nil_append, hw.stepAt?_append, ← hv.stepAt?_append]
  | @string t _ hkind =>
    subst hrest
    exact .same [t] (.string hkind)
  | @number t _ _ hkind hvalue =>
    subst hrest
    exact .same [t] (.number hkind hvalue)
  | @identifier t _ _ hkind hname =>
    subst hrest
    exact .same [t] (.identifier hkind hname)
  | @group t ts inner close rest hopening _ hclosing ih =>
    subst hrest
    obtain ⟨p, g, e', rfl, hsuffix, hcontent, hgives⟩ := ih (r := close :: r) rfl fun _ =>
      ⟨close.kind, rfl, by simp [hclosing], by simp [hclosing]⟩
    cases hgives with
    | same =>
      have hsuffix : r <:+ t :: p :=
        ((List.suffix_cons close r).trans hsuffix).trans (List.suffix_cons t p)
      exact ⟨t :: p, r, _, rfl, hsuffix, .group hopening hcontent hclosing, .same⟩

end Reread

-- ---------------------------------------------------------------------------
-- The mark of `!=`
-- ---------------------------------------------------------------------------

/-- The tokens in front of `rest` end in a `!`, and `rest` starts with `=`. -/
def SplitsMark (ts rest : List Token) : Prop :=
  ∃ used x, ts = used ++ x :: rest ∧ x.kind = .exclam ∧ kindAt rest = some .equal

namespace SplitsMark

variable {ts mid rest : List Token}

/-- It is the last part that ends in the `!`. -/
theorem of_suffix (h : SplitsMark ts rest) (hmid : mid <:+ ts) (hrest : rest <:+ mid)
    (hne : mid ≠ rest) : SplitsMark mid rest := by
  obtain ⟨used, x, rfl, hexclam, hequal⟩ := h
  obtain ⟨more, rfl⟩ := hrest
  obtain ⟨front, hfront⟩ := hmid
  rcases List.eq_nil_or_concat more with rfl | ⟨more, y, rfl⟩
  · exact absurd rfl hne
  · have hsplit : (front ++ more ++ [y]) ++ rest = (used ++ [x]) ++ rest := by simpa using hfront
    have hsplit : (front ++ more) ++ [y] = used ++ [x] := List.append_cancel_right hsplit
    obtain ⟨-, hlast⟩ := List.append_inj' hsplit rfl
    obtain rfl : y = x := by simpa using hlast
    exact ⟨more, y, by simp, hexclam, hequal⟩

theorem elim (h : SplitsMark ts rest) (hmid : mid <:+ ts) (hrest : rest <:+ mid)
    (hfirst : ¬ SplitsMark ts mid) (hsecond : ¬ SplitsMark mid rest) : False := by
  by_cases hsame : mid = rest
  · exact hfirst (hsame ▸ h)
  · exact hsecond (h.of_suffix hmid hrest hsame)

theorem irrefl (h : SplitsMark ts ts) : False := by
  obtain ⟨used, x, hts, -⟩ := h
  have hlength := congrArg List.length hts
  simp only [List.length_append, List.length_cons] at hlength
  omega

theorem kind_eq {t : Token} (h : SplitsMark (t :: rest) rest) : t.kind = .exclam := by
  obtain ⟨used, x, hts, hexclam, -⟩ := h
  have hused : used = [] := by simpa using congrArg List.length hts
  subst hused
  exact (List.cons.inj hts).1 ▸ hexclam

end SplitsMark

/-- The `!` of `!=` is not taken as a factorial. -/
theorem Derives.not_splitsMark {rule : Rule} {ts rest : List Token} {e : Node}
    (h : Derives rule ts e rest) : ¬ SplitsMark ts rest := by
  intro hmark
  induction h with
  | chain hfirst hmore ihfirst ihmore =>
    exact hmark.elim hfirst.suffix hmore.suffix ihfirst ihmore
  | operandChain _ _ ih => exact ih hmark
  | operandPower _ _ ih => exact ih hmark
  | extendStop => exact hmark.irrefl
  | @extendStep _ _ t ts op more _ _ _ rest _ hoperand hmore ihoperand ihmore =>
    obtain ⟨fewer, -⟩ := eq_some_found hoperand.outcome
    have hbehind : ts.drop more <:+ t :: ts :=
      (List.drop_suffix more ts).trans (List.suffix_cons t ts)
    have hfewer : rest.length < (ts.drop more).length := hmore.suffix.length_le.trans_lt fewer
    have hmark := hmark.of_suffix hbehind (hmore.suffix.trans hoperand.suffix)
      (ne_of_apply_ne _ (Nat.ne_of_gt hfewer))
    exact hmark.elim hoperand.suffix hmore.suffix ihoperand ihmore
  | powerStop _ _ ih => exact ih hmark
  | @powerStep ts _ t mid _ rest hfirst _ hnext _ ih =>
    obtain ⟨fewer, -⟩ := eq_some_found hnext.outcome
    have hbehind : mid <:+ ts := (List.suffix_cons t mid).trans hfirst.suffix
    exact ih (hmark.of_suffix hbehind hnext.suffix (ne_of_apply_ne _ (Nat.ne_of_gt fewer)))
  | repeated hfirst hmore ihfirst ihmore =>
    exact hmark.elim hfirst.suffix hmore.suffix ihfirst ihmore
  | factorialsStop => exact hmark.irrefl
  | @factorialsStep _ t ts _ rest hexclam hnext ih =>
    by_cases hrest : ts = rest
    · obtain ⟨_, _, -, -, hequal⟩ := hmark
      exact hexclam.2 (hrest ▸ hequal)
    · exact ih (hmark.of_suffix (List.suffix_cons t ts) hnext.suffix hrest)
  | unaryAtom _ ih => exact ih hmark
  | @unaryLeading t ts _ _ rest _ _ hoperand ih =>
    obtain ⟨fewer, -⟩ := eq_some_found hoperand.outcome
    exact ih (hmark.of_suffix (List.suffix_cons t ts) hoperand.suffix
      (ne_of_apply_ne _ (Nat.ne_of_gt fewer)))
  | @atomStep a b c t ts _ _ hstep =>
    have hkind := (hmark.of_suffix (List.suffix_append [a, b] (c :: ts)) (List.suffix_cons c ts)
      (by simp)).kind_eq
    simp only [step?] at hstep
    split at hstep <;> simp_all
  | atomSingle _ _ ih => exact ih hmark
  | string hkind => simp [hmark.kind_eq] at hkind
  | number hkind => simp [hmark.kind_eq] at hkind
  | identifier hkind => simp [hmark.kind_eq] at hkind
  | @group t ts _ close rest _ hcontent hclosing =>
    have hbehind : close :: rest <:+ t :: ts := hcontent.suffix.trans (List.suffix_cons t ts)
    have hkind := (hmark.of_suffix hbehind (List.suffix_cons close rest) (by simp)).kind_eq
    simp [hclosing] at hkind

-- ---------------------------------------------------------------------------
-- Comparisons
-- ---------------------------------------------------------------------------

section Comparison

variable {ts tl tr : List Token} {l r : Node} {a b x : Token}

theorem derives_of_chain {tier : Tier} {rest : List Token} {e : Node}
    (h : (chain tier ts).map Step.result = some (.ok e, rest)) :
    Derives (.chain tier) ts e rest := by
  obtain ⟨fewer, hfound⟩ := eq_some_found h
  simpa [Explained, hfound] using explained_chain tier ts

/-- An operand with the tokens of an operator behind it is read as before, unless its last token
    is a `!` that an equals sign follows. -/
theorem Derives.in_front (h : Derives (.chain .order) tl l []) {w : List Token}
    (hw : EndsOperand w) :
    (Derives (.chain .order) (tl ++ w) l w) ∨
      ∃ ts x l', tl = ts ++ [x] ∧ x.kind = .exclam ∧ kindAt w = some .equal ∧
        Derives (.chain .order) (ts ++ x :: w) l' (x :: w) := by
  obtain ⟨p, g, e', hp, -, hread, hgives⟩ :=
    h.rereads (v := []) (.inl rfl) (by simp) hw (r := []) rfl (by simp [Rule.isLoose, Tier.isLoose])
  obtain rfl : tl = p := by simpa using hp
  cases hgives with
  | same => exact .inl hread
  | @mark _ x _ hequal hlast hexclam =>
    obtain ⟨ts, rfl⟩ := List.getLast?_eq_some_iff.mp hlast
    exact .inr ⟨ts, x, e', rfl, hexclam, hequal, by simpa using hread⟩

/-- An operand in front of `!=` is read in the same way without it. -/
theorem Derives.without {v : List Token} (h : Derives (.chain .order) (ts ++ v) l v)
    (hv : EndsOperand v) (hplain : kindAt v ≠ some .equal) : Derives (.chain .order) ts l [] := by
  obtain ⟨p, g, e', hp, -, hread, hgives⟩ :=
    h.rereads hv hplain (w := []) (.inl rfl) (r := []) rfl (by simp [Rule.isLoose, Tier.isLoose])
  obtain rfl : ts = p := List.append_cancel_right hp
  cases hgives with
  | same => simpa using hread
  | mark hequal => cases hequal

/-- An expression is a comparison if no looser operator follows. -/
theorem expression_of_equality (h : Derives (.chain .equality) ts l []) :
    (expression ts).result = (.ok l, []) := by
  have hdisjunction : Derives (.chain .disjunction) ts l [] :=
    .chain (.operandChain rfl h) (.extendStop rfl)
  have hconjunction : Derives (.chain .conjunction) ts l [] :=
    .chain (.operandChain rfl hdisjunction) (.extendStop rfl)
  obtain ⟨fewer, hfound⟩ := hconjunction.expression
  rw [hfound]
  rfl

/-- Two operands with an operator between them are a comparison. -/
theorem derives_comparison {op : Operator} {ts : List Token}
    (hleft : Derives (.chain .order) ts l (a :: b :: tr))
    (hright : Derives (.chain .order) tr r [])
    (hoperator : Tier.equality.operator? a.kind (some b.kind) = some (op, 1)) :
    Derives (.chain .equality) ts (.binary op l r) [] :=
  .chain (.operandChain rfl hleft)
    (.extendStep hoperator (.operandChain rfl hright) (.extendStop rfl))

/-- Behind the `!` and the first equals sign of `! = =`, the second one is no operand. -/
theorem expression_of_mark {ts : List Token}
    (hleft : Derives (.chain .order) ts l (x :: a :: b :: tr)) (hx : x.kind = .exclam)
    (ha : a.kind = .equal) (hb : b.kind = .equal) :
    (expression ts).result = (.error (.fault (.nothingAfter .notEqual l)), b :: tr) := by
  have hoperator :
      Tier.equality.operator? x.kind (kindAt (a :: b :: tr)) = some (.notEqual, 1) := by
    simp [Tier.operator?, hx, ha]
  have habsent : ¬ opensOperand (b :: tr) :=
    EndsOperand.not_opensOperand (.inr (.inl (congrArg some hb)))
  have hequality : Fails (.chain .equality) ts (.fault (.nothingAfter .notEqual l)) (b :: tr) :=
    .chainMore (.operandChain rfl hleft) (.extendAbsent hoperator habsent)
  have hconjunction : Fails (.chain .conjunction) ts _ _ :=
    .chainFirst (.operandChain rfl (.chainFirst (.operandChain rfl hequality)))
  obtain ⟨_, hfailed⟩ := eq_some_failed hconjunction.outcome
  rw [expression, hfailed]
  rfl

/-- `==` and `!=` compare what stands on their two sides, whatever operands these are. Only a
    left operand that ends in a factorial cannot be compared with `==`: its last `!` is read
    as `!=` with the first equals sign, and the second one is not an operand. -/
theorem equality_operators_compose {tl tr : List Token} {l r : Node} {a b : Token}
    (hleft : (chain .order tl).map Step.result = some (.ok l, []))
    (hright : (chain .order tr).map Step.result = some (.ok r, [])) (hb : b.kind = .equal) :
    (a.kind = .exclam →
      (expression (tl ++ a :: b :: tr)).result = (.ok (.binary .notEqual l r), [])) ∧
    (a.kind = .equal → (∀ x ∈ tl.getLast?, x.kind ≠ .exclam) →
      (expression (tl ++ a :: b :: tr)).result = (.ok (.binary .equal l r), [])) ∧
    (a.kind = .equal → ∀ ts x, tl = ts ++ [x] → x.kind = .exclam →
      ∃ l', (chain .order ts).map Step.result = some (.ok l', []) ∧
        (expression (tl ++ a :: b :: tr)).result =
          (.error (.fault (.nothingAfter .notEqual l')), b :: tr)) := by
  have hleft := derives_of_chain hleft
  have hright := derives_of_chain hright
  refine ⟨fun ha => ?_, fun ha hlast => ?_, fun ha ts x htl hx => ?_⟩
  · have hbehind : EndsOperand (a :: b :: tr) := .inr (.inr ⟨congrArg some ha, congrArg some hb⟩)
    have hoperator : Tier.equality.operator? a.kind (some b.kind) = some (.notEqual, 1) := by
      simp [Tier.operator?, ha, hb]
    rcases hleft.in_front hbehind with hread | ⟨_, _, _, -, -, hequal, -⟩
    · exact expression_of_equality (derives_comparison hread hright hoperator)
    · simp [ha] at hequal
  · have hbehind : EndsOperand (a :: b :: tr) := .inr (.inl (congrArg some ha))
    have hoperator : Tier.equality.operator? a.kind (some b.kind) = some (.equal, 1) := by
      simp [Tier.operator?, ha, hb]
    rcases hleft.in_front hbehind with hread | ⟨ts, x, _, rfl, hx, -, -⟩
    · exact expression_of_equality (derives_comparison hread hright hoperator)
    · exact absurd hx (hlast x (by simp))
  · have hbehind : EndsOperand (a :: b :: tr) := .inr (.inl (congrArg some ha))
    rcases hleft.in_front hbehind with hread | ⟨ts', x', l', htl', -, -, hread⟩
    · exact absurd ⟨ts, x, by simp [htl], hx, congrArg some ha⟩ hread.not_splitsMark
    · obtain ⟨rfl, rfl⟩ : ts' = ts ∧ x' = x := by simpa using htl'.symm.trans htl
      have hmark : EndsOperand (x' :: a :: b :: tr) :=
        .inr (.inr ⟨congrArg some hx, congrArg some ha⟩)
      refine ⟨l', (hread.without hmark (by simp [hx])).outcome, ?_⟩
      rw [htl, List.append_assoc]
      exact expression_of_mark hread hx ha hb

end Comparison

/-- The token of a variable `x`. -/
def nameToken : Token := { kind := .identifier, text := some "x" }

theorem chain_name : (chain .order [nameToken]).map Step.result =
    some (.ok (.value (.identifier ⟨"x", false⟩)), []) := by
  simp [nameToken, chain, operand, power, repeated, unary, atom, single, identifierOf,
    Identifier.ofSource, Step.ofToken, Step.map, factorials, Step.widen, extend, Step.result]

theorem chain_name_factorial : (chain .order [nameToken, { kind := .exclam }]).map Step.result =
    some (.ok (.unary .factorial (.value (.identifier ⟨"x", false⟩))), []) := by
  simp [nameToken, chain, operand, power, repeated, unary, atom, single, identifierOf,
    Identifier.ofSource, Step.ofToken, Step.map, factorials, Step.widen, extend, Step.result]

/-- The comparisons `x! != x` and `x == x!`, and `x! == x`, which is none. -/
theorem equality_operators_compose_name :
    (expression ([nameToken, { kind := .exclam }] ++
        { kind := .exclam } :: { kind := .equal } :: [nameToken])).result =
      (.ok (.binary .notEqual (.unary .factorial (.value (.identifier ⟨"x", false⟩)))
        (.value (.identifier ⟨"x", false⟩))), []) ∧
    (expression ([nameToken] ++
        { kind := .equal } :: { kind := .equal } :: [nameToken, { kind := .exclam }])).result =
      (.ok (.binary .equal (.value (.identifier ⟨"x", false⟩))
        (.unary .factorial (.value (.identifier ⟨"x", false⟩)))), []) ∧
    ∃ l', (chain .order [nameToken]).map Step.result = some (.ok l', []) ∧
      (expression ([nameToken, { kind := .exclam }] ++
          { kind := .equal } :: { kind := .equal } :: [nameToken])).result =
        (.error (.fault (.nothingAfter .notEqual l')), [{ kind := .equal }, nameToken]) :=
  ⟨(equality_operators_compose chain_name_factorial chain_name rfl).1 rfl,
    (equality_operators_compose chain_name chain_name_factorial rfl).2.1 rfl (by
      simp [nameToken]),
    (equality_operators_compose chain_name_factorial chain_name rfl).2.2 rfl [nameToken] _ rfl rfl⟩

/-- In `x! == x` the `!` is read as `!=`, although both sides are operands. -/
theorem factorial_not_compared :
    ¬ ∀ (tl tr : List Token) (l r : Node) (a b : Token),
      (chain .order tl).map Step.result = some (.ok l, []) →
      (chain .order tr).map Step.result = some (.ok r, []) →
      a.kind = .equal → b.kind = .equal →
      (expression (tl ++ a :: b :: tr)).result = (.ok (.binary .equal l r), []) := by
  intro h
  have hoperand : (chain .order [nameToken, { kind := .exclam }, { kind := .equal },
      { kind := .equal }, nameToken]).map Step.result =
      some (.ok (.value (.identifier ⟨"x", false⟩)), [{ kind := .exclam }, { kind := .equal },
        { kind := .equal }, nameToken]) := by
    simp [nameToken, chain, operand, power, repeated, unary, atom, step?, single, identifierOf,
      Identifier.ofSource, Step.ofToken, Step.map, factorials, Step.widen, extend, Tier.operator?,
      Step.result]
  have hcompared := h _ _ _ _ { kind := .equal } { kind := .equal } chain_name_factorial chain_name
    rfl rfl
  cases hcompared.symm.trans (expression_of_mark (derives_of_chain hoperand) rfl rfl rfl)

end Yolol.Parse

-- SUMMARY: A line is read in the same way wherever it stands.
import Yolol.Proofs.LineText
import Yolol.Proofs.StatementCompleteness

/-!
# Lines on their own

Nothing that is read of a line looks past its newline: a rule that looks ahead treats a
newline like the end, and none takes one. So a line that is read within a program is
also read where nothing follows it, and the other way round. A single statement may be
read differently: behind `a =` the end leaves `a` a statement, while a newline makes it the
front of an assignment. But then no line is read in either place.
-/

namespace Yolol.Parse

open Token

/-! ## The tokens of a line -/

/-- `SameLine tail tail' ts us`: the tokens `ts` up to `tail` and the tokens `us` up to
    `tail'`, where their lines end, are the same, though they may stand at other places. -/
inductive SameLine (tail tail' : List Token) : List Token → List Token → Prop where
  | nil : SameLine tail tail' tail tail'
  | cons {t u ts us} (inner : t.kind ≠ .newline) (same : t.bare = u.bare)
      (next : SameLine tail tail' ts us) : SameLine tail tail' (t :: ts) (u :: us)

/-- What does not look at the place of a token is the same elsewhere. -/
theorem eq_of_bare {α : Type} {f : Token → α} (hf : ∀ t, f t.bare = f t) {t u : Token}
    (h : t.bare = u.bare) : f t = f u := by
  rw [← hf t, h, hf u]

theorem kind_eq_of_bare {t u : Token} (h : t.bare = u.bare) : t.kind = u.kind :=
  eq_of_bare (fun _ => rfl) h

/-- A step of a variable stands within its line, and elsewhere it is the same one. -/
theorem step?_elsewhere {a b c t : Token} {op : Operator} (h : step? a b c = some (op, t)) :
    (a.kind ≠ .newline ∧ b.kind ≠ .newline ∧ c.kind ≠ .newline) ∧
      ∀ a' b' c', a.bare = a'.bare → b.bare = b'.bare → c.bare = c'.bare →
        ∃ t', step? a' b' c' = some (op, t') ∧ t.bare = t'.bare := by
  simp only [step?] at h
  split at h
  case h_1 ha hb hc | h_2 ha hb hc =>
    cases h
    refine ⟨by simp [ha, hb, hc], fun a' b' c' hsa hsb hsc => ⟨a', ?_, hsa⟩⟩
    simp [step?, ← kind_eq_of_bare hsa, ← kind_eq_of_bare hsb, ← kind_eq_of_bare hsc, ha, hb, hc]
  case h_3 ha hb hc | h_4 ha hb hc =>
    cases h
    refine ⟨by simp [ha, hb, hc], fun a' b' c' hsa hsb hsc => ⟨c', ?_, hsc⟩⟩
    simp [step?, ← kind_eq_of_bare hsa, ← kind_eq_of_bare hsb, ← kind_eq_of_bare hsc, ha, hb, hc]
  case h_5 => cases h

theorem kindAt_of_endsLine {tail : List Token} (h : EndsLine tail) {kind : Kind}
    (hkind : kind ≠ .newline) : kindAt tail ≠ some kind := by
  rcases h with rfl | hnewline
  · simp
  · have hnewline : kindAt tail = some .newline := hnewline
    simp [hnewline, hkind.symm]

theorem operatorAt?_of_endsLine {tail : List Token} (h : EndsLine tail) (tier : Tier) :
    tier.operatorAt? tail = none := by
  rcases h with rfl | hnewline
  · rfl
  · have hnewline : kindAt tail = some .newline := hnewline
    obtain ⟨t, ts, rfl, hkind⟩ := kindAt_eq_some hnewline
    cases tier <;> simp [Tier.operatorAt?, Tier.operator?, hkind]

namespace SameLine

variable {tail tail' ts us : List Token}

theorem symm (h : SameLine tail tail' ts us) : SameLine tail' tail us ts := by
  induction h with
  | nil => exact .nil
  | cons hinner hsame _ ih => exact .cons (kind_eq_of_bare hsame ▸ hinner) hsame.symm ih

/-- A token that is no newline stands on both sides. -/
theorem cons_inv {t : Token} (htail : EndsLine tail) (h : SameLine tail tail' (t :: ts) us)
    (hkind : t.kind ≠ .newline) :
    ∃ u us', us = u :: us' ∧ t.bare = u.bare ∧ SameLine tail tail' ts us' := by
  cases h with
  | nil => exact absurd rfl (kindAt_of_endsLine htail hkind)
  | @cons _ u _ us _ hsame hnext => exact ⟨u, us, rfl, hsame, hnext⟩

/-- A token of a known kind, other than a newline, has its counterpart of the same kind. -/
theorem kind_inv {t : Token} {kind : Kind} (htail : EndsLine tail)
    (h : SameLine tail tail' (t :: ts) us) (hkind : t.kind = kind)
    (hne : kind ≠ .newline := by decide) :
    ∃ u us', us = u :: us' ∧ t.bare = u.bare ∧ u.kind = kind ∧ SameLine tail tail' ts us' := by
  obtain ⟨u, us', rfl, hsame, hnext⟩ := h.cons_inv htail (hkind ▸ hne)
  exact ⟨u, us', rfl, hsame, (kind_eq_of_bare hsame).symm.trans hkind, hnext⟩

variable (htail : EndsLine tail) (htail' : EndsLine tail')

include htail htail'

/-- Looking ahead finds the same kinds, except that a newline is the end. -/
theorem kindAt_iff (h : SameLine tail tail' ts us) {kind : Kind} (hkind : kind ≠ .newline) :
    kindAt us = some kind ↔ kindAt ts = some kind := by
  cases h with
  | nil => simp [kindAt_of_endsLine htail hkind, kindAt_of_endsLine htail' hkind]
  | cons _ hsame _ => simp [kind_eq_of_bare hsame]

theorem factorialAt_iff (h : SameLine tail tail' ts us) : factorialAt us ↔ factorialAt ts := by
  unfold factorialAt
  rw [h.kindAt_iff htail htail' (by decide)]
  refine and_congr_right fun hexclam => not_congr ?_
  obtain ⟨t, ts, rfl, hkind⟩ := kindAt_eq_some hexclam
  obtain ⟨u, us, rfl, -, -, hnext⟩ := h.kind_inv htail hkind
  exact hnext.kindAt_iff htail htail' (by decide)

omit htail htail' in
/-- An operator is told by its first token and by whether an equals sign follows. -/
theorem operator?_congr {tier : Tier} {first : Kind} {second second' : Option Kind}
    (h : second' = some .equal ↔ second = some .equal) :
    tier.operator? first second' = tier.operator? first second := by
  unfold Tier.operator?
  simp only [h]

theorem operatorAt?_eq (h : SameLine tail tail' ts us) (tier : Tier) :
    tier.operatorAt? us = tier.operatorAt? ts := by
  cases h with
  | nil => rw [operatorAt?_of_endsLine htail, operatorAt?_of_endsLine htail']
  | cons _ hsame hnext =>
    rw [Tier.operatorAt?, Tier.operatorAt?, kind_eq_of_bare hsame]
    exact operator?_congr (hnext.kindAt_iff htail htail' (by decide))

omit htail in
theorem stepAt?_eq_none (h : SameLine tail tail' ts us) (hstep : stepAt? ts = none) :
    stepAt? us = none := by
  match us, h with
  | [], _ | [_], _ | [_, _], _ => rfl
  | a :: b :: c :: us, h =>
    by_contra hsome
    obtain ⟨⟨op, t⟩, hsome⟩ := Option.ne_none_iff_exists'.mp hsome
    -- A step does not go past a newline, so it would stand on the other side as well.
    obtain ⟨⟨ha, hb, hc⟩, helsewhere⟩ := step?_elsewhere hsome
    obtain ⟨a', ts, rfl, hsa, h⟩ := h.symm.cons_inv htail' ha
    obtain ⟨b', ts, rfl, hsb, h⟩ := h.cons_inv htail' hb
    obtain ⟨c', ts, rfl, hsc, h⟩ := h.cons_inv htail' hc
    obtain ⟨_, hother, -⟩ := helsewhere a' b' c' hsa hsb hsc
    have hstep : step? a' b' c' = none := hstep
    simp [hstep] at hother

end SameLine

theorem sameLine_append {ts us tail tail' : List Token} (hinner : ∀ t ∈ ts, t.kind ≠ .newline)
    (hsame : ts.map bare = us.map bare) : SameLine tail tail' (ts ++ tail) (us ++ tail') := by
  induction ts generalizing us with
  | nil =>
    obtain rfl : us = [] := by simpa using hsame.symm
    exact .nil
  | cons t ts ih =>
    obtain ⟨u, us, rfl, hu, hus⟩ := List.map_eq_cons_iff.mp hsame.symm
    obtain ⟨ht, hts⟩ := List.forall_mem_cons.mp hinner
    exact .cons ht hu.symm (ih hts hus.symm)

/-! ## Expressions -/

theorem ne_newline_of_mem_kinds (op : Operator) {kind : Kind} (h : kind ∈ op.kinds) :
    kind ≠ .newline := by
  rintro rfl
  cases isInner_of_mem_kinds op _ h

/-- An expression of a line is found in it wherever the line stands. -/
theorem Derives.elsewhere {rule : Rule} {ts rest tail tail' us : List Token} {e : Node}
    (h : Derives rule ts e rest) (htail : EndsLine tail) (htail' : EndsLine tail')
    (hline : SameLine tail tail' ts us) :
    ∃ rest', Derives rule us e rest' ∧ SameLine tail tail' rest rest' := by
  induction h generalizing us with
  | chain _ _ ihfirst ihmore =>
    obtain ⟨mid, hfirst, hmid⟩ := ihfirst hline
    obtain ⟨rest, hmore, hrest⟩ := ihmore hmid
    exact ⟨rest, .chain hfirst hmore, hrest⟩
  | operandChain hbelow _ ih =>
    obtain ⟨rest, hoperand, hrest⟩ := ih hline
    exact ⟨rest, .operandChain hbelow hoperand, hrest⟩
  | operandPower hbelow _ ih =>
    obtain ⟨rest, hoperand, hrest⟩ := ih hline
    exact ⟨rest, .operandPower hbelow hoperand, hrest⟩
  | @extendStop tier left ts hstop =>
    exact ⟨us, .extendStop (hline.operatorAt?_eq htail htail' tier ▸ hstop), hline⟩
  | @extendStep tier left t ts op more right mid e rest hoperator _ _ ihoperand ihnext =>
    have hkinds := operator?_kinds hoperator
    have hkind : t.kind ≠ .newline := by
      rcases hkinds with ⟨hkinds, -⟩ | ⟨hkinds, -⟩ <;>
        exact ne_newline_of_mem_kinds op (by simp [hkinds])
    obtain ⟨u, us, rfl, hsame, hus⟩ := hline.cons_inv htail hkind
    have hbehind : SameLine tail tail' (ts.drop more) (us.drop more) := by
      rcases hkinds with ⟨-, rfl⟩ | ⟨-, hequal, rfl⟩
      · exact hus
      · obtain ⟨v, vs, rfl, hv⟩ := kindAt_eq_some hequal
        obtain ⟨_, _, rfl, -, -, hvs⟩ := hus.kind_inv htail hv
        exact hvs
    have hoperator' : tier.operator? u.kind (Parse.kindAt us) = some (op, more) := by
      have hsecond : Parse.kindAt us = some .equal ↔ Parse.kindAt ts = some .equal :=
        hus.kindAt_iff htail htail' (by decide)
      rwa [← kind_eq_of_bare hsame, SameLine.operator?_congr hsecond]
    obtain ⟨mid, hoperand, hmid⟩ := ihoperand hbehind
    obtain ⟨rest, hnext, hrest⟩ := ihnext hmid
    exact ⟨rest, .extendStep hoperator' hoperand hnext, hrest⟩
  | powerStop _ hstop ih =>
    obtain ⟨rest, hbase, hrest⟩ := ih hline
    refine ⟨rest, .powerStop hbase ?_, hrest⟩
    rwa [Ne, hrest.kindAt_iff htail htail' (by decide)]
  | @powerStep ts base t mid exponent rest _ hcaret _ ihfirst ihnext =>
    obtain ⟨_, hfirst, hmid⟩ := ihfirst hline
    obtain ⟨u, us, rfl, -, hcaret', hus⟩ := hmid.kind_inv htail hcaret
    obtain ⟨rest, hnext, hrest⟩ := ihnext hus
    exact ⟨rest, .powerStep hfirst hcaret' hnext, hrest⟩
  | repeated _ _ ihfirst ihmore =>
    obtain ⟨mid, hfirst, hmid⟩ := ihfirst hline
    obtain ⟨rest, hmore, hrest⟩ := ihmore hmid
    exact ⟨rest, .repeated hfirst hmore, hrest⟩
  | factorialsStop hstop =>
    exact ⟨us, .factorialsStop (mt (hline.factorialAt_iff htail htail').mp hstop), hline⟩
  | @factorialsStep operand t ts e rest hexclam _ ih =>
    have hkind : t.kind = .exclam := Option.some.inj hexclam.1
    have hexclam' := (hline.factorialAt_iff htail htail').mpr hexclam
    obtain ⟨u, us, rfl, -, -, hus⟩ := hline.kind_inv htail hkind
    obtain ⟨rest, hnext, hrest⟩ := ih hus
    exact ⟨rest, .factorialsStep hexclam' hnext, hrest⟩
  | unaryAtom _ ih =>
    obtain ⟨rest, hoperand, hrest⟩ := ih hline
    exact ⟨rest, .unaryAtom hoperand, hrest⟩
  | @unaryLeading t ts op e rest hoperator hstep _ ih =>
    have hstep' := hline.stepAt?_eq_none htail' hstep
    have hkind : t.kind ≠ .newline := fun h => by simp [h, leadingOperator?] at hoperator
    obtain ⟨u, us, rfl, hsame, hus⟩ := hline.cons_inv htail hkind
    obtain ⟨rest, hoperand, hrest⟩ := ih hus
    exact ⟨rest, .unaryLeading (kind_eq_of_bare hsame ▸ hoperator) hstep' hoperand, hrest⟩
  | atomStep hstep hname =>
    obtain ⟨⟨ha, hb, hc⟩, helsewhere⟩ := step?_elsewhere hstep
    obtain ⟨a, us, rfl, hsa, hus⟩ := hline.cons_inv htail ha
    obtain ⟨b, us, rfl, hsb, hus⟩ := hus.cons_inv htail hb
    obtain ⟨c, us, rfl, hsc, hus⟩ := hus.cons_inv htail hc
    obtain ⟨u, hstep', hsame⟩ := helsewhere a b c hsa hsb hsc
    have hname' := (eq_of_bare (f := identifierOf) (fun _ => rfl) hsame).symm.trans hname
    exact ⟨us, .atomStep hstep' hname', hus⟩
  | atomSingle hstep _ ih =>
    obtain ⟨rest, hvalue, hrest⟩ := ih hline
    exact ⟨rest, .atomSingle (hline.stepAt?_eq_none htail' hstep) hvalue, hrest⟩
  | @string t ts hkind =>
    obtain ⟨u, us, rfl, hsame, hkind', hus⟩ := hline.kind_inv htail hkind
    rw [eq_of_bare (f := textOf .text .text) (fun _ => rfl) hsame]
    exact ⟨us, .string hkind', hus⟩
  | @number t ts n hkind hvalue =>
    obtain ⟨u, us, rfl, hsame, hkind', hus⟩ := hline.kind_inv htail hkind
    have hvalue' := (eq_of_bare (f := numberOf) (fun _ => rfl) hsame).symm.trans hvalue
    exact ⟨us, .number hkind' hvalue', hus⟩
  | @identifier t ts id hkind hname =>
    obtain ⟨u, us, rfl, hsame, hkind', hus⟩ := hline.kind_inv htail hkind
    have hname' := (eq_of_bare (f := identifierOf) (fun _ => rfl) hsame).symm.trans hname
    exact ⟨us, .identifier hkind' hname', hus⟩
  | @group t ts inner close rest hopening _ hclosing ih =>
    obtain ⟨u, us, rfl, -, hopening', hus⟩ := hline.kind_inv htail hopening
    obtain ⟨_, hcontent, hmid⟩ := ih hus
    obtain ⟨v, vs, rfl, -, hclosing', hvs⟩ := hmid.kind_inv htail hclosing
    exact ⟨vs, .group hopening' hcontent hclosing', hvs⟩

/-- Rules that read an expression from its first token on. -/
def Rule.isWhole : Rule → Bool
  | .extend .. | .factorials _ => false
  | _ => true

/-- A name in front of an equals sign that is no comparison is an expression of its own. -/
theorem Derives.rest_of_name {rule : Rule} {ts rest : List Token} {e : Node}
    (h : Derives rule ts e rest) (hwhole : rule.isWhole = true) {a b : Token} {us : List Token}
    (hts : ts = a :: b :: us) (hname : a.kind = .identifier) (hequal : b.kind = .equal)
    (hplain : Parse.kindAt us ≠ some .equal) : rest = b :: us := by
  induction h with
  | @chain tier _ _ _ _ _ _ hmore ihfirst =>
    obtain rfl := ihfirst rfl hts
    -- No level has an operator that an equals sign alone spells.
    cases hmore with
    | extendStop => rfl
    | extendStep hoperator =>
      cases tier <;> simp [Tier.operator?, hequal, hplain] at hoperator
  | operandChain _ _ ih | operandPower _ _ ih => exact ih rfl hts
  | powerStop _ _ ih => exact ih rfl hts
  | powerStep _ hcaret _ ihfirst =>
    cases ihfirst rfl hts
    simp [hequal] at hcaret
  | repeated _ hmore ihfirst =>
    obtain rfl := ihfirst rfl hts
    cases hmore with
    | factorialsStop => rfl
    | factorialsStep hexclam => simp [factorialAt, hequal] at hexclam
  | unaryAtom _ ih => exact ih rfl hts
  | unaryLeading hoperator =>
    cases hts
    simp [hname, leadingOperator?] at hoperator
  | atomStep hstep =>
    cases hts
    simp [step?, hname, hequal] at hstep
  | atomSingle _ _ ih => exact ih rfl hts
  | string hkind | number hkind | group hkind =>
    cases hts
    simp [hname] at hkind
  | identifier =>
    cases hts
    rfl
  | extendStop | extendStep | factorialsStop | factorialsStep => cases hwhole

/-! ## Statements -/

/-- What is no assignment in one place is none in another, unless an equals sign is left. -/
theorem SameLine.assignmentAt?_eq_none {ts us rest tail tail' : List Token} {e : Node}
    (h : SameLine tail tail' ts us) (htail : EndsLine tail) (htail' : EndsLine tail')
    (hplain : assignmentAt? ts = none) (hvalue : Derives (.chain .conjunction) ts e rest)
    (hrest : kindAt rest ≠ some .equal) : assignmentAt? us = none := by
  by_contra hsome
  obtain ⟨⟨op, more⟩, hsome⟩ := Option.ne_none_iff_exists'.mp hsome
  obtain ⟨a, b, c, us, rfl, ha, hform⟩ := assignmentAt?_eq_some hsome
  obtain ⟨a', ts, rfl, hsa, ha', h⟩ := h.symm.kind_inv htail' ha
  rcases hform with ⟨hb, hc, -⟩ | ⟨hc, hcompound, -⟩
  · obtain ⟨b', ts, rfl, -, hb', h⟩ := h.kind_inv htail' hb
    have hc' : kindAt ts ≠ some .equal := by
      rw [Ne, h.kindAt_iff htail' htail (by decide)]
      simpa using hc
    obtain rfl := hvalue.rest_of_name rfl rfl ha' hb' hc'
    exact hrest (congrArg some hb')
  · have hb : b.kind ≠ .newline := fun h => by simp [h, compoundAssignment?] at hcompound
    obtain ⟨b', ts, rfl, hsb, h⟩ := h.cons_inv htail' hb
    obtain ⟨c', ts, rfl, hsc, -, -⟩ := h.kind_inv htail' hc
    simp only [assignmentAt?, assignment?, kind_eq_of_bare hsa, kind_eq_of_bare hsb,
      kind_eq_of_bare hsc] at hsome hplain
    simp [hplain] at hsome

/-- No statement, nor what is still to be read of one, starts with an equals sign. -/
theorem Composes.kindAt_ne_equal {phase : Phase} {ts rest : List Token} {s : Node}
    (h : Composes phase ts s rest) : kindAt ts ≠ some .equal := by
  have hstatement {ts rest : List Token} {s : Node} (h : Composes .statement ts s rest) :
      kindAt ts ≠ some .equal := by
    obtain ⟨kind, hkind, hopens⟩ := h.opens
    rintro hequal
    obtain rfl : kind = .equal := Option.some.inj (hkind.symm.trans hequal)
    simp [isOpening] at hopens
  cases h with
  | close hkind | turn hkind => simp [hkind]
  | bodyStep hfirst | otherwiseStep hfirst => exact hstatement hfirst
  | comment hkind => exact hstatement (.comment hkind)
  | goto hkind htarget => exact hstatement (.goto hkind htarget)
  | assignment hspelled hname hvalue => exact hstatement (.assignment hspelled hname hvalue)
  | evaluation hplain hvalue => exact hstatement (.evaluation hplain hvalue)
  | conditional hkind htest hthen hnext => exact hstatement (.conditional hkind htest hthen hnext)

/-- A statement of a line is found in it wherever the line stands, unless an equals sign is
    left. -/
theorem Composes.elsewhere {phase : Phase} {ts rest tail tail' us : List Token} {s : Node}
    (h : Composes phase ts s rest) (htail : EndsLine tail) (htail' : EndsLine tail')
    (hline : SameLine tail tail' ts us) (hleft : kindAt rest ≠ some .equal) :
    ∃ rest', Composes phase us s rest' ∧ SameLine tail tail' rest rest' := by
  induction h generalizing us with
  | @comment t ts hkind =>
    obtain ⟨u, us, rfl, hsame, hkind', hus⟩ := hline.kind_inv htail hkind
    rw [eq_of_bare (f := textOf .comment .comment) (fun _ => rfl) hsame]
    exact ⟨us, .comment hkind', hus⟩
  | goto hkind htarget =>
    obtain ⟨u, us, rfl, -, hkind', hus⟩ := hline.kind_inv htail hkind
    obtain ⟨rest, htarget, hrest⟩ := htarget.elsewhere htail htail' hus
    exact ⟨rest, .goto hkind' htarget, hrest⟩
  | @assignment a ts op more id e rest hspelled hname hvalue =>
    obtain ⟨_, b, c, vs, heq, ha, hform⟩ := assignmentAt?_eq_some hspelled
    cases heq
    have hinner : b.kind ≠ .newline ∧ c.kind ≠ .newline := by
      rcases hform with ⟨hb, -, -, rfl⟩ | ⟨hc, hcompound, -⟩
      · -- The third token begins the value.
        obtain ⟨kind, hkind, hopening⟩ := kindAt_of_opensOperand hvalue.opens
        obtain rfl : c.kind = kind := Option.some.inj hkind
        exact ⟨by simp [hb], fun h => by simp [h, isOpening] at hopening⟩
      · exact ⟨fun h => by simp [h, compoundAssignment?] at hcompound, by simp [hc]⟩
    obtain ⟨a', us, rfl, hsa, -, hus⟩ := hline.kind_inv htail ha
    obtain ⟨b', us, rfl, hsb, hbs⟩ := hus.cons_inv htail hinner.1
    obtain ⟨c', us, rfl, hsc, hcs⟩ := hbs.cons_inv htail hinner.2
    have hbehind :
        SameLine tail tail' ((b :: c :: vs).drop more) ((b' :: c' :: us).drop more) := by
      rcases hform with ⟨-, -, -, rfl⟩ | ⟨-, -, rfl⟩
      · exact hbs
      · exact hcs
    have hspelled' : assignmentAt? (a' :: b' :: c' :: us) = some (op, more) := by
      rw [← hspelled]
      simp only [assignmentAt?, assignment?, kind_eq_of_bare hsa, kind_eq_of_bare hsb,
        kind_eq_of_bare hsc]
    have hname' := (eq_of_bare (f := identifierOf) (fun _ => rfl) hsa).symm.trans hname
    obtain ⟨rest, hvalue, hrest⟩ := hvalue.elsewhere htail htail' hbehind
    exact ⟨rest, .assignment hspelled' hname' hvalue, hrest⟩
  | evaluation hplain hvalue =>
    have hplain' := hline.assignmentAt?_eq_none htail htail' hplain hvalue hleft
    obtain ⟨rest, hvalue, hrest⟩ := hvalue.elsewhere htail htail' hline
    exact ⟨rest, .evaluation hplain' hvalue, hrest⟩
  | conditional hkind htest hthen _ ih =>
    obtain ⟨u, us, rfl, -, hkind', hus⟩ := hline.kind_inv htail hkind
    obtain ⟨mid, htest, hmid⟩ := htest.elsewhere htail htail' hus
    obtain ⟨v, vs, rfl, -, hthen', hvs⟩ := hmid.kind_inv htail hthen
    obtain ⟨rest, hbranches, hrest⟩ := ih hvs hleft
    exact ⟨rest, .conditional hkind' htest hthen' hbranches, hrest⟩
  | close hkind =>
    obtain ⟨u, us, rfl, -, hkind', hus⟩ := hline.kind_inv htail hkind
    exact ⟨us, .close hkind', hus⟩
  | turn hkind _ ih =>
    obtain ⟨u, us, rfl, -, hkind', hus⟩ := hline.kind_inv htail hkind
    obtain ⟨rest, hnext, hrest⟩ := ih hus hleft
    exact ⟨rest, .turn hkind' hnext, hrest⟩
  | bodyStep _ hnext ihfirst ihnext =>
    obtain ⟨mid, hfirst, hmid⟩ := ihfirst hline hnext.kindAt_ne_equal
    obtain ⟨rest, hnext, hrest⟩ := ihnext hmid hleft
    exact ⟨rest, .bodyStep hfirst hnext, hrest⟩
  | otherwiseStep _ hnext ihfirst ihnext =>
    obtain ⟨mid, hfirst, hmid⟩ := ihfirst hline hnext.kindAt_ne_equal
    obtain ⟨rest, hnext, hrest⟩ := ihnext hmid hleft
    exact ⟨rest, .otherwiseStep hfirst hnext, hrest⟩

/-! ## Lines -/

/-- What is left of a line that can be read does not start with an equals sign. -/
theorem kindAt_ne_equal_of_lineFrom {soFar : List Node} {ts : List Token} {node : Node}
    (h : (lineFrom soFar ts).result = .ok node) : kindAt ts ≠ some .equal := by
  fun_cases lineFrom soFar ts with
  | case1 => simp
  | case2 t ts hkind => simp [hkind]
  | case3 t ts hkind next f rest _ hfailed =>
    rw [lineFrom, if_neg hkind] at h
    simp only [show (statement (t :: ts)).value = _ from hfailed] at h
    cases h
  | case4 t ts hkind next s rest _ hfound => exact (composes_of_statement hfound).kindAt_ne_equal

theorem lineFrom_of_endsLine {tail : List Token} (h : EndsLine tail) (soFar : List Node) :
    (lineFrom soFar tail).result = .ok (.line soFar) ∧ (lineFrom soFar tail).rest = tail.tail := by
  rcases h with rfl | hnewline
  · simp [lineFrom]
  · have hnewline : kindAt tail = some .newline := hnewline
    obtain ⟨t, ts, rfl, hkind⟩ := kindAt_eq_some hnewline
    simp [lineFrom, hkind]

/-- A line is read in the same way wherever it stands. It ends at the newline, which it
    takes. -/
theorem lineFrom_elsewhere {soFar : List Node} {ts tail tail' : List Token} {node : Node}
    (h : (lineFrom soFar ts).result = .ok node) (htail : EndsLine tail)
    (htail' : EndsLine tail') :
    ∀ us, SameLine tail tail' ts us →
      (lineFrom soFar us).result = .ok node ∧ (lineFrom soFar ts).rest = tail.tail := by
  fun_induction lineFrom soFar ts with
  | case1 soFar =>
    rintro _ ⟨⟩
    exact ⟨(lineFrom_of_endsLine htail' soFar).1.trans h, rfl⟩
  | case2 soFar t ts hkind =>
    rintro _ (_ | ⟨hinner, -, -⟩)
    · exact ⟨(lineFrom_of_endsLine htail' soFar).1.trans h, rfl⟩
    · exact absurd hkind hinner
  | case3 => cases h
  | case4 soFar t ts _ next s rest _ hfound ih =>
    intro us hline
    obtain ⟨rest', hcomposes, hrest⟩ := (composes_of_statement hfound).elsewhere htail htail' hline
      (kindAt_ne_equal_of_lineFrom h)
    obtain ⟨hresult, hend⟩ := ih h rest' hrest
    exact ⟨((Sequence.cons hcomposes .nil).lineFrom soFar).1.trans hresult, hend⟩

/-- A line that can be read is taken together with its newline. -/
theorem rest_lineFrom {soFar : List Node} {ts tail : List Token} {node : Node}
    (hinner : ∀ t ∈ ts, t.kind ≠ .newline) (htail : EndsLine tail)
    (h : (lineFrom soFar (ts ++ tail)).result = .ok node) :
    (lineFrom soFar (ts ++ tail)).rest = tail.tail :=
  (lineFrom_elsewhere h htail htail _ (sameLine_append hinner rfl)).2

/-- What was read, or why nothing was, and what is left. -/
def Reading.outcome (r : Reading) : Except (Failure StatementFault) Node × List Token :=
  (r.result, r.rest)

@[simp] theorem outcome_prepend (r : Reading) (ms : List Message) :
    (r.prepend ms).outcome = r.outcome := rfl

/-- A program is read line by line. -/
theorem outcome_programFrom (lines soFar : List Node) (ts : List Token)
    (h : soFar ≠ [] ∨ ts ≠ []) :
    (programFrom lines soFar ts).outcome =
      match (lineFrom soFar ts).result with
      | .ok line => (programFrom (lines ++ [line]) [] (lineFrom soFar ts).rest).outcome
      | .error f => (.error f, (lineFrom soFar ts).rest) := by
  fun_induction programFrom lines soFar ts with
  | case1 lines soFar hempty =>
    simp at hempty
    simp [hempty] at h
  | case2 lines soFar hempty => simp [lineFrom, programFrom, Reading.outcome]
  | case3 lines soFar t ts hkind ih =>
    rw [lineFrom, if_pos hkind]
    rfl
  | case4 lines soFar t ts hkind _ f rest _ hfailed =>
    have hfailed : (statement (t :: ts)).value = _ := hfailed
    rw [lineFrom, if_neg hkind]
    simp only [hfailed, Reading.outcome]
  | case5 lines soFar t ts hkind next s rest _ hfound ih =>
    have hfound : (statement (t :: ts)).value = _ := hfound
    rw [lineFrom, if_neg hkind]
    simp only [hfound]
    exact ih (.inl (by simp))

theorem result_programFrom (lines soFar : List Node) (ts : List Token)
    (h : soFar ≠ [] ∨ ts ≠ []) :
    (programFrom lines soFar ts).result =
      match (lineFrom soFar ts).result with
      | .ok line => (programFrom (lines ++ [line]) [] (lineFrom soFar ts).rest).result
      | .error f => .error f := by
  have houtcome := congrArg Prod.fst (outcome_programFrom lines soFar ts h)
  cases hline : (lineFrom soFar ts).result with
  | ok line => simpa [hline, Reading.outcome] using houtcome
  | error f => simpa [hline, Reading.outcome] using houtcome

end Yolol.Parse

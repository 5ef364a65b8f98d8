-- SUMMARY: Among tokens with a meaning, reading fails only where they stand in the wrong order.
import Yolol.Proofs.ParsedTree

/-!
# Tokens with a meaning

A name without text and a number that cannot be read stop the parser with a failure of
their own. Names of source text always have a text, and a number of source text can be
read unless its whole part is too long, so there reading fails only with a fault.
-/

namespace Yolol

/-! ## Numbers of source text -/

/-- The whole part of a number is no longer than a number can be read. -/
def Token.isShort (t : Token) : Bool :=
  t.kind != .number || ((t.text.getD "").toList.takeWhile isNumeral).length ≤ Number.maxDigits

/-- A number with a whole part that is not too long can be read. -/
theorem Number.exists_ofLiteral {text : String} (htext : Token.isNumberText text.toList = true)
    (hshort : (text.toList.takeWhile Token.isNumeral).length ≤ maxDigits) :
    ∃ n, ofLiteral text = .ok n := by
  obtain ⟨c, ds, hc, hds, hform⟩ := Token.isNumberText_cases htext
  have hwhole : ∀ d ∈ c :: ds, Token.isNumeral d = true := List.forall_mem_cons.mpr ⟨hc, hds⟩
  have hread {places : List Char} (hwritten : Written (c :: ds) places text.toList)
      (hplaces : ∀ d ∈ places, Token.isNumeral d = true)
      (hlength : (c :: ds).length ≤ maxDigits) : ∃ n, ofLiteral text = .ok n := by
    have hliteral := ofLiteral_numerals false hwritten hwhole (by simp) hlength hplaces
    rw [if_neg (by decide), String.ofList_toList] at hliteral
    exact ⟨_, hliteral⟩
  rcases hform with hform | ⟨places, hform, -, hplaces⟩
  · have hall : text.toList.takeWhile Token.isNumeral = c :: ds := by
      rw [hform]
      exact List.takeWhile_eq_self_iff.mpr hwhole
    have hwritten : Written (c :: ds) [] text.toList := by
      rw [hform]
      exact .whole
    exact hread hwritten (by simp) (hall ▸ hshort)
  · have hall : text.toList.takeWhile Token.isNumeral = c :: ds := by
      rw [hform, ← List.cons_append]
      exact Token.takeWhile_numerals hwhole (by simp [Token.isNumeral])
    have hwritten : Written (c :: ds) places text.toList := by
      rw [hform, ← List.cons_append]
      exact .point
    exact hread hwritten hplaces (hall ▸ hshort)

namespace Parse

/-- A token that is no misfit, names a variable if it is a name, and denotes a number if it
    is one. -/
structure Meaningful (t : Token) : Prop where
  fits : t.misfit = none
  name : t.kind = .identifier → ∃ id, identifierOf t = .ok id
  value : t.kind = .number → ∃ n, numberOf t = .ok n

theorem meaningful_of_isLexical {t : Token} (hlexical : t.isLexical = true)
    (hshort : t.isShort = true) : Meaningful t := by
  refine ⟨Token.misfit_eq_none hlexical, fun hkind => ?_, fun hkind => ?_⟩
  · cases htext : t.text with
    | none => simp [Token.isLexical, hkind, htext] at hlexical
    | some text => exact ⟨.ofSource text, by rw [identifierOf, htext]⟩
  · cases htext : t.text with
    | none => simp [Token.isLexical, hkind, htext] at hlexical
    | some text =>
      have hnumber : Token.isNumberText text.toList = true := by
        simp only [Token.isLexical, hkind, htext, Bool.and_eq_true] at hlexical
        exact hlexical.2
      have hlength : (text.toList.takeWhile Token.isNumeral).length ≤ Number.maxDigits := by
        simpa [Token.isShort, hkind, htext] using hshort
      obtain ⟨n, hn⟩ := Number.exists_ofLiteral hnumber hlength
      exact ⟨n, by simp [numberOf, htext, hn]⟩

/-! ## Expressions -/

section
variable {rule : Rule} {ts rest : List Token} {e : Node}

/-- What a rule leaves has a meaning if all that it read from has. -/
theorem Derives.meaningful (h : Derives rule ts e rest) (hts : ∀ t ∈ ts, Meaningful t) :
    ∀ t ∈ rest, Meaningful t := fun t ht => hts t (h.suffix.subset ht)

/-- Among tokens that have a meaning, a rule fails with a fault. -/
theorem Fails.exists_fault {f : Failure ExpressionFault} (h : Fails rule ts f rest)
    (hts : ∀ t ∈ ts, Meaningful t) : ∃ g, f = .fault g := by
  induction h with
  | chainFirst _ ih | operandChain _ _ ih | operandPower _ _ ih | powerFirst _ ih
  | repeated _ ih | unaryAtom _ ih | atomSingle _ _ ih => exact ih hts
  | chainMore hfirst _ ih => exact ih (hfirst.meaningful hts)
  | extendAbsent | extendFault | powerAbsent | unaryAbsent | groupAbsent | groupUnclosed =>
    exact ⟨_, rfl⟩
  | extendToken _ _ ih =>
    obtain ⟨g, hg⟩ := ih fun t ht => hts t (.tail _ (List.mem_of_mem_drop ht))
    cases hg
  | extendStep _ hoperand _ ih =>
    exact ih (hoperand.meaningful fun t ht => hts t (.tail _ (List.mem_of_mem_drop ht)))
  | powerStep hfirst _ _ ih =>
    exact ih fun t ht => hfirst.meaningful hts t (List.mem_cons_of_mem _ ht)
  | unaryLeading _ _ _ ih | groupContent _ _ ih =>
    exact ih fun t ht => hts t (List.mem_cons_of_mem _ ht)
  | atomStep hstep hname =>
    obtain ⟨id, hid⟩ := (hts _ (step?_mem hstep _)).name (step?_symbols hstep).1
    rw [hid] at hname
    cases hname
  | number hkind hvalue =>
    obtain ⟨n, hn⟩ := (hts _ List.mem_cons_self).value hkind
    rw [hn] at hvalue
    cases hvalue
  | identifier hkind hname =>
    obtain ⟨id, hid⟩ := (hts _ List.mem_cons_self).name hkind
    rw [hid] at hname
    cases hname

theorem Stuck.exists_fault {f : Failure ExpressionFault} (h : Stuck ts f rest)
    (hts : ∀ t ∈ ts, Meaningful t) : ∃ g, f.ofExpression = .fault g := by
  cases h with
  | within hfails =>
    obtain ⟨g, rfl⟩ := hfails.exists_fault hts
    exact ⟨_, rfl⟩
  | before => exact ⟨_, rfl⟩

end

/-! ## Statements -/

section
variable {phase : Phase} {ts rest : List Token} {s : Node}

theorem Composes.meaningful (h : Composes phase ts s rest) (hts : ∀ t ∈ ts, Meaningful t) :
    ∀ t ∈ rest, Meaningful t := by
  obtain ⟨symbols, hspells, -⟩ := h.spells fun t ht => (hts t ht).fits
  exact fun t ht => hts t (hspells.mem ht)

/-- Among tokens that have a meaning, a statement breaks off with a fault. -/
theorem Breaks.exists_fault {f : Failure StatementFault} (h : Breaks phase ts f rest)
    (hts : ∀ t ∈ ts, Meaningful t) : ∃ g, f = .fault g := by
  induction h with
  | goto _ hstuck | test _ hstuck =>
    exact hstuck.exists_fault fun t ht => hts t (List.mem_cons_of_mem _ ht)
  | assignmentName hspelled hname =>
    obtain ⟨_, _, _, _, heq, hkind, -⟩ := assignmentAt?_eq_some hspelled
    cases heq
    obtain ⟨id, hid⟩ := (hts _ List.mem_cons_self).name hkind
    rw [hid] at hname
    cases hname
  | assignment _ _ hstuck =>
    exact hstuck.exists_fault fun t ht => hts t (.tail _ (List.mem_of_mem_drop ht))
  | evaluation _ hstuck => exact hstuck.exists_fault hts
  | missingThen | missingEnd | repeatedElse => exact ⟨_, rfl⟩
  | conditional _ htest _ _ ih =>
    have hbehind := htest.meaningful fun t ht => hts t (List.mem_cons_of_mem _ ht)
    exact ih fun t ht => hbehind t (List.mem_cons_of_mem _ ht)
  | turn _ _ ih => exact ih fun t ht => hts t (List.mem_cons_of_mem _ ht)
  | first _ ih => exact ih hts
  | bodyStep hfirst _ ih | otherwiseStep hfirst _ ih => exact ih (hfirst.meaningful hts)

end

/-! ## Lines -/

theorem lineFrom_exists_fault {soFar : List Node} {ts : List Token} {f : Failure StatementFault}
    (h : (lineFrom soFar ts).result = .error f) (hts : ∀ t ∈ ts, Meaningful t) :
    ∃ g, f = .fault g := by
  fun_induction lineFrom soFar ts with
  | case1 | case2 => cases h
  | case3 soFar t ts _ _ g rest _ hfailed =>
    cases h
    exact (breaks_of_statement hfailed).exists_fault hts
  | case4 soFar t ts _ _ s rest _ hfound ih =>
    exact ih h ((composes_of_statement hfound).meaningful hts)

/-- No number of the source text has a whole part that is too long. -/
def ShortNumbers (source : String) : Prop :=
  ∀ ts, Token.scan source = .ok ts → ∀ t ∈ ts, t.isShort = true

instance (source : String) : Decidable (ShortNumbers source) :=
  match h : Token.scan source with
  | .error f => .isTrue fun ts hscan => by simp [h] at hscan
  | .ok us =>
    decidable_of_iff (∀ t ∈ us, t.isShort = true)
      ⟨fun hus ts hscan => by
        rw [h] at hscan
        cases hscan
        exact hus, fun hshort => hshort us h⟩

/-- A line of source text cannot be read only for a character or for the order of its
    tokens. -/
theorem lineOfSource_ne_token {source : String} (hshort : ShortNumbers source) (f : TokenFault) :
    lineOfSource source ≠ .error (.token f) := by
  intro h
  rw [lineOfSource, ofSource] at h
  split at h
  · cases h
  · next ts hscan =>
    have hlexical := (Token.lexical_of_scan hscan).1
    have hts : ∀ t ∈ ts, Meaningful t := fun t ht =>
      meaningful_of_isLexical (hlexical t ht) (hshort ts hscan t ht)
    split at h
    · cases h
    · next failure hline =>
      obtain ⟨g, rfl⟩ := lineFrom_exists_fault hline hts
      cases h

end Parse

end Yolol

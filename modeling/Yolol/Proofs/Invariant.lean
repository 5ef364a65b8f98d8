-- SUMMARY: What every change to the environment keeps is kept by any line and any program.
import Yolol.Proofs.FailingLine
import Yolol.Proofs.Hosts
import Yolol.Proofs.SameVariable

/-!
# Invariants of a run

A tree changes the environment in three places only: where it steps a variable, where it
assigns to one, and where it jumps. A property of the environment that the changes of its
nodes keep is kept by the whole tree, whether it runs to its end or fails. Here a tree need
not be one that the parser builds: any node may stand anywhere in it.
-/

namespace Yolol.Run

open Node Parse

/-! ## Actions that keep a property -/

/-- An action that keeps `I`, and whose result, if it gives one, has `Q`. -/
def Upholds (I : Environment → Prop) {α : Type} (Q : α → Prop) (x : Action α) : Prop :=
  ∀ env, I env → I (x env).env ∧ ∀ a, (x env).result = .ok a → Q a

namespace Upholds

variable {I : Environment → Prop} {α β : Type} {P : α → Prop} {Q : β → Prop}

theorem pure {a : α} (ha : P a) : Upholds I P (Action.pure a) := by
  intro env hI
  refine ⟨hI, fun b hb => ?_⟩
  cases hb
  exact ha

theorem fail (e : Fault) : Upholds I P (Action.fail e) :=
  fun _ hI => ⟨hI, fun _ h => nomatch h⟩

theorem report (m : Message) : Upholds I (fun _ => True) (Action.report m) :=
  fun _ hI => ⟨hI, fun _ _ => trivial⟩

theorem modifyEnv {f : Environment → Environment} (hf : ∀ env, I env → I (f env)) :
    Upholds I (fun _ => True) (Action.modifyEnv f) :=
  fun env hI => ⟨hf env hI, fun _ _ => trivial⟩

theorem lift {result : Except RuntimeFault α} (h : ∀ a, result = .ok a → P a) :
    Upholds I P (Action.lift result) := by
  cases result with
  | ok a => exact .pure (h a rfl)
  | error r => exact .fail _

theorem imp {x : Action α} (hx : Upholds I P x) {P' : α → Prop} (h : ∀ a, P a → P' a) :
    Upholds I P' x := by
  intro env hI
  obtain ⟨henv, hresult⟩ := hx env hI
  exact ⟨henv, fun a ha => h a (hresult a ha)⟩

theorem bind {x : Action α} {f : α → Action β} (hx : Upholds I P x)
    (hf : ∀ a, P a → Upholds I Q (f a)) : Upholds I Q (x >>= f) := by
  intro env hI
  obtain ⟨hmid, hresult⟩ := hx env hI
  cases hfirst : (x env).result with
  | error e =>
    rw [env_bind_error hfirst, result_bind_error hfirst]
    exact ⟨hmid, fun _ h => nomatch h⟩
  | ok a =>
    rw [env_bind hfirst, result_bind hfirst]
    exact hf a (hresult a hfirst) _ hmid

end Upholds

/-! ## Results of operators -/

theorem number_of_approximate {wrap : Number.ApproximateFault → RuntimeFault}
    {result : Except Number.ApproximateFault Number} {v : Value}
    (h : approximate wrap result = .ok v) : ∃ n, v = .number n := by
  cases result with
  | error e => cases h
  | ok n => exact ⟨n, by cases h; rfl⟩

theorem number_of_exact {result : Except Number.ArithmeticFault Number} {v : Value}
    (h : exact result = .ok v) : ∃ n, v = .number n := by
  cases result with
  | error e => cases h
  | ok n => exact ⟨n, by cases h; rfl⟩

theorem number_of_applyToNumber {op : Operator} {n : Number} {v : Value}
    (h : applyToNumber op n = .ok v) : ∃ m, v = .number m := by
  cases op with
  | negate | abs =>
    cases h
    exact ⟨_, rfl⟩
  | factorial =>
    simp only [applyToNumber] at h
    split at h <;> cases h
    exact ⟨_, rfl⟩
  | sqrt =>
    simp only [applyToNumber] at h
    split at h
    · cases h
    · exact number_of_approximate h
  | arcsin | arccos =>
    simp only [applyToNumber] at h
    split at h
    · exact number_of_approximate h
    · cases h
  | sin | cos | tan | arctan => exact number_of_approximate h
  | _ => cases h

theorem number_of_applyUnary {op : Operator} {v w : Value} (h : applyUnary op v = .ok w) :
    ∃ n, w = .number n := by
  unfold applyUnary at h
  split at h
  · cases h
    exact ⟨_, rfl⟩
  · cases v with
    | number n => exact number_of_applyToNumber h
    | text s | other content => cases h

theorem number_of_applyToNumbers {op : Operator} {a b : Number} {v : Value}
    (h : applyToNumbers op a b = .ok v) : ∃ n, v = .number n := by
  cases op with
  | div | mod => exact number_of_exact h
  | pow => exact number_of_approximate h
  | add | sub | mul | less | lessEqual | greater | greaterEqual =>
    cases h
    exact ⟨_, rfl⟩
  | _ => cases h

/-- Two operands give a number, unless they are texts, which can only be joined. -/
theorem applyBinary_eq_ok {op : Operator} {a b v : Value} (h : applyBinary op a b = .ok v) :
    (∃ n, v = .number n) ∨ ∃ s t, a = .text s ∧ b = .text t ∧ v = .text (s ++ t) := by
  unfold applyBinary at h
  split at h
  iterate 4
    · cases h
      exact .inl ⟨_, rfl⟩
  · split at h
    · exact .inl (number_of_applyToNumbers h)
    · next s t =>
      split at h <;> cases h
      exact .inr ⟨s, t, rfl, rfl, rfl⟩
    · cases h

/-! ## Invariants -/

/-- A property `I` of environments that is kept wherever a node with `p` changes one. In such
    environments, and among the values that are computed from them, every value has `V`. -/
structure Invariant (p : Node → Bool) (I : Environment → Prop) (V : Value → Prop) : Prop where
  number : ∀ n, V (.number n)
  text : ∀ {s}, p (.text s) = true → V (.text s)
  misfit : ∀ {content}, p (.misfit .text content) = true → V (.other content)
  join : ∀ {s t}, V (.text s) → V (.text t) → V (.text (s ++ t))
  read : ∀ {env}, I env → ∀ target, V (env.read target)
  step : ∀ {op a}, p (.unary op (.value a)) = true → op.isStep = true → a.isName = true →
    a.collection? = none → ∀ {env}, I env → ∀ n, I (env.set a (.number n))
  assign : ∀ {target op e}, p (.assignment target op e) = true → target.collection? = none →
    ∀ {env value}, I env → V value → I (env.set target value)
  jump : ∀ {e}, p (.goto e) = true → ∀ {env}, I env → ∀ n, I { env with nextLine := n }

namespace Invariant

variable {p : Node → Bool} {I : Environment → Prop} {V : Value → Prop} (hI : Invariant p I V)

include hI

/-! ## Expressions -/

theorem readVariable (target : Node) :
    Upholds I (fun v => V v ∧ target.collection? = none) (readVariable target) := by
  unfold Run.readVariable
  cases target.collection? with
  | some name => exact .fail _
  | none =>
    intro env henv
    refine ⟨henv, fun v hv => ?_⟩
    cases hv
    exact ⟨hI.read henv target, rfl⟩

theorem stepVariable {op : Operator} {a : Node} (hp : p (.unary op (.value a)) = true)
    (hstep : op.isStep = true) (hname : a.isName = true) : Upholds I V (stepVariable op a) := by
  refine (hI.readVariable a).bind fun found ⟨_, hcollection⟩ => ?_
  cases found with
  | number old =>
    have hset : Upholds I (fun _ => True)
        (Action.modifyEnv (·.set a (.number (stepped op old)))) :=
      .modifyEnv fun env henv => hI.step hp hstep hname hcollection henv _
    exact hset.bind fun _ _ => .pure (hI.number _)
  | text s => exact .fail _
  | other content => exact .fail _

theorem takeStep {op : Operator} {a : Node} (hp : p (.unary op a) = true)
    (hstep : op.isStep = true) : Upholds I V (Run.step op a) := by
  unfold Run.step
  split
  · exact hI.stepVariable hp hstep rfl
  · exact hI.stepVariable hp hstep rfl
  · exact .fail _

theorem applyUnary (op : Operator) (v : Value) : Upholds I V (Action.lift (applyUnary op v)) := by
  refine .lift fun w hw => ?_
  obtain ⟨n, rfl⟩ := number_of_applyUnary hw
  exact hI.number n

theorem applyBinary (op : Operator) {a b : Value} (ha : V a) (hb : V b) :
    Upholds I V (Action.lift (applyBinary op a b)) := by
  refine .lift fun w hw => ?_
  obtain ⟨n, rfl⟩ | ⟨s, t, rfl, rfl, rfl⟩ := applyBinary_eq_ok hw
  · exact hI.number n
  · exact hI.join ha hb

theorem evaluate {e : Node} (he : e.every p = true) : Upholds I V (evaluate e) := by
  fun_induction Run.evaluate e with
  | case1 a ih | case7 a ih =>
    simp only [every, Bool.and_eq_true] at he
    exact ih he.2
  | case2 n => exact .pure (hI.number n)
  | case3 s => exact .pure (hI.text he)
  | case4 content => exact .pure (hI.misfit he)
  | case5 | case6 => exact (hI.readVariable _).imp fun _ h => h.1
  | case8 op a hstep =>
    simp only [every, Bool.and_eq_true] at he
    exact hI.takeStep he.1 hstep
  | case9 op a _ ih =>
    simp only [every, Bool.and_eq_true] at he
    exact (ih he.2).bind fun v _ => hI.applyUnary op v
  | case10 op a b iha ihb =>
    simp only [every, Bool.and_eq_true] at he
    exact (iha he.2.1).bind fun _ hleft =>
      (ihb he.2.2).bind fun _ hright => hI.applyBinary op hleft hright
  | case11 => exact .fail _

/-! ## Statements -/

theorem assigned (target : Node) (op : Operator) {value : Value} (hvalue : V value) :
    Upholds I V (assigned target op value) := by
  unfold Run.assigned
  split
  · exact .pure hvalue
  · cases op.compound? with
    | none => exact .fail _
    | some inner =>
      intro env henv
      exact hI.applyBinary inner (hI.read henv target) hvalue env henv

theorem assignTo {target e : Node} {op : Operator} (hp : p (.assignment target op e) = true)
    {value : Value} (hvalue : V value) :
    Upholds I (fun _ => True) (Run.assign target op value) := by
  unfold Run.assign
  split
  · exact .fail _
  · next hcollection =>
    refine (hI.assigned target op hvalue).bind fun stored hstored => ?_
    have hset : Upholds I (fun _ => True) (Action.modifyEnv (·.set target stored)) :=
      .modifyEnv fun env henv => hI.assign hp hcollection henv hstored
    exact hset.bind fun _ _ => .report _

theorem jumpTo {e : Node} (hp : p (.goto e) = true) (value : Value) :
    Upholds I (fun _ => True) (Run.jump value) := by
  cases value with
  | number n =>
    have hmove : Upholds I (fun _ => True)
        (Action.modifyEnv ({ · with nextLine := n.truncate })) :=
      .modifyEnv fun env henv => hI.jump hp henv _
    exact hmove.bind fun _ _ => .report _
  | text s => exact .fail _
  | other content => exact .fail _

theorem test {c : Node} (hc : c.every p = true) : Upholds I (fun _ => True) (test c) :=
  (hI.evaluate hc).bind fun _ _ => (Upholds.report _).bind fun _ _ => .pure trivial

end Invariant

mutual
theorem Invariant.execute {p : Node → Bool} {I : Environment → Prop} {V : Value → Prop}
    (hI : Invariant p I V) (s : Node) (hs : s.every p = true) :
    Upholds I (fun _ => True) (execute s) := by
  match s with
  | .comment _ | .misfit .comment _ => exact .pure trivial
  | .goto a =>
    simp only [every, Bool.and_eq_true] at hs
    exact (hI.evaluate hs.2).bind fun v _ => hI.jumpTo hs.1 v
  | .assignment target op a =>
    simp only [every, Bool.and_eq_true] at hs
    exact (hI.evaluate hs.2.2).bind fun v hv => hI.assignTo hs.1 hv
  | .evaluation a =>
    simp only [every, Bool.and_eq_true] at hs
    exact (hI.evaluate hs.2).bind fun _ _ => .pure trivial
  | .ifThen c body =>
    simp only [every, Bool.and_eq_true] at hs
    refine (hI.test hs.2.1).bind fun holds _ => ?_
    cases holds with
    | true => exact hI.executeAll body hs.2.2
    | false => exact .pure trivial
  | .ifElse c body otherwise =>
    simp only [every, Bool.and_eq_true] at hs
    refine (hI.test hs.2.1).bind fun holds _ => ?_
    cases holds with
    | true => exact hI.executeAll body hs.2.2.1
    | false => exact hI.executeAll otherwise hs.2.2.2
  | .missing | .misfit .text _ | .misfit (.name _) _ | .number _ | .text _ | .identifier _
  | .group _ | .value _ | .unary .. | .binary .. | .line _ | .program _ => exact .fail _

theorem Invariant.executeAll {p : Node → Bool} {I : Environment → Prop} {V : Value → Prop}
    (hI : Invariant p I V) (ss : List Node) (hss : everyAll p ss = true) :
    Upholds I (fun _ => True) (executeAll ss) := by
  match ss with
  | [] => exact .pure trivial
  | s :: ss =>
    simp only [everyAll, Bool.and_eq_true] at hss
    exact (hI.execute s hss.1).bind fun _ _ => hI.executeAll ss hss.2
end

/-! ## Lines and programs -/

section
variable {p : Node → Bool} {I : Environment → Prop} {V : Value → Prop} (hI : Invariant p I V)

include hI

theorem Invariant.runLine {line : Node} (hline : line.every p = true) :
    Upholds I (fun _ => True) (runLine line) := by
  have hreport : Upholds I (fun _ => True) (reportLine line) := by
    intro env henv
    rw [env_reportLine]
    exact ⟨henv, fun _ _ => trivial⟩
  refine hreport.bind fun _ _ => ?_
  cases line with
  | line statements =>
    simp only [every, Bool.and_eq_true] at hline
    exact hI.executeAll statements hline.2
  | _ => exact .fail _

variable (herror : ∀ env message, I env → I { env with error := message })
  (hcounter : ∀ env n, I env → I { env with nextLine := n })

include herror

/-- A host that records a fault changes the error as well. -/
theorem Invariant.recordFault {line : Node} (hline : line.every p = true) :
    Upholds I (fun _ => True) (Run.recordFault (Run.runLine line)) := by
  intro env henv
  obtain ⟨hran, -⟩ := hI.runLine hline env henv
  refine ⟨?_, fun _ _ => trivial⟩
  unfold Run.recordFault
  cases hresult : (Run.runLine line env).result with
  | ok _ => simpa [hresult] using hran
  | error fault =>
    cases fault with
    | runtime f => simpa [hresult] using herror _ f.message hran
    | tree f | token f => simpa [hresult] using hran

include hcounter

theorem Invariant.runNext {lines : List Node} (hlines : everyAll p lines = true) :
    Upholds I (fun _ => True) (runNext lines) := by
  intro env henv
  refine ⟨?_, fun _ _ => trivial⟩
  have hadvanced : I (advanced lines.length env) := hcounter env _ henv
  cases hline : lines[currentLine lines.length env.nextLine - 1]? with
  | none =>
    simp only [Run.runNext, bind, Action.bind, Action.getEnv, Action.modifyEnv, hline]
    exact hadvanced
  | some line =>
    have hmem := List.mem_of_getElem? hline
    rw [runNext_apply hline]
    exact (hI.recordFault herror (everyAll_iff.mp hlines line hmem) _ hadvanced).1

theorem Invariant.runLines {lines : List Node} (hlines : everyAll p lines = true) (count : Nat) :
    Upholds I (fun _ => True) (runLines lines count) := by
  induction count with
  | zero => exact .pure trivial
  | succ count ih => exact (hI.runNext herror hcounter hlines).bind fun _ _ => ih

theorem Invariant.runProgram {program : Node} (hprogram : program.every p = true) (steps : Int) :
    Upholds I (fun _ => True) (runProgram program steps) := by
  unfold Run.runProgram
  split
  · exact .pure trivial
  · simp only [every, Bool.and_eq_true] at hprogram
    exact hI.runLines herror hcounter hprogram.2 _
  · exact .fail _

/-- Text that cannot be read changes the error and the counter. -/
theorem Invariant.executeSource {source : String}
    (hsource : ∀ line, lineOfSource source = .ok line → line.every p = true) :
    Upholds I (fun _ => True) (executeSource source) := by
  intro env henv
  refine ⟨?_, fun _ _ => trivial⟩
  unfold Run.executeSource
  cases hread : lineOfSource source with
  | error fault =>
    cases fault with
    | lex f | statement f =>
      exact herror { env with nextLine := env.nextLine + 1 } f.message (hcounter env _ henv)
    | token f => exact henv
  | ok line =>
    obtain ⟨hran, -⟩ := hI.runLine (hsource line hread) env henv
    simp only
    cases (Run.runLine line env).result with
    | ok _ => exact hran
    | error fault =>
      cases fault with
      | runtime f => exact herror _ _ hran
      | tree f | token f => exact hran

end

end Yolol.Run

-- SUMMARY: A line that fails keeps what it had done, and nothing is half done.
import Yolol.Proofs.Precedence
import Yolol.Run.Host

/-!
# Lines that fail

A line runs in stages: simple statements, and tests of conditions, which choose the
statements that come next. If a stage fails, the stages in front of it stay done. Of its own
doing only the steps of variables stay that its expression took in front of the fault: no
target has been assigned, and the line counter has not moved.
-/

namespace Yolol.Node

/-! ## Parts of statements -/

/-- The steps of variables in an expression, in the order in which they are taken. -/
def steps : Node → List (Operator × Node)
  | .value a | .group a => a.steps
  | .unary op a => if op.isStep then [(op, a)] else a.steps
  | .binary _ a b => a.steps ++ b.steps
  | _ => []

/-- The node itself steps no variable. -/
def isStepless : Node → Bool
  | .unary op _ => !op.isStep
  | _ => true

/-- Statements that hold no others. -/
def isSimple : Node → Bool
  | .goto _ | .assignment .. | .evaluation _ => true
  | _ => false

def isRemark : Node → Bool
  | .comment _ | .misfit .comment _ => true
  | _ => false

/-- The condition of a conditional, and its statements if it holds and if it does not. -/
def branches? : Node → Option (Node × List Node × List Node)
  | .ifThen c body => some (c, body, [])
  | .ifElse c body otherwise => some (c, body, otherwise)
  | _ => none

theorem steps_eq_nil {e : Node} (h : e.every isStepless = true) : e.steps = [] := by
  fun_induction steps e with
  | case1 a ih | case2 a ih =>
    simp only [every, Bool.and_eq_true] at h
    exact ih h.2
  | case3 op a hstep => simp [every, isStepless, hstep] at h
  | case4 op a _ ih =>
    simp only [every, Bool.and_eq_true] at h
    exact ih h.2
  | case5 op a b iha ihb =>
    simp only [every, Bool.and_eq_true] at h
    rw [iha h.2.1, ihb h.2.2]
    rfl
  | case6 => rfl

end Yolol.Node

namespace Yolol.Run

open Node

/-! ## Steps of an expression -/

/-- Take steps of variables, one after the other. -/
def takeSteps : List (Operator × Node) → Action Unit
  | [] => Action.pure ()
  | (op, a) :: more => do
    let _ ← step op a
    takeSteps more

/-- `Took steps env env'`: the steps can be taken one after the other, and they lead from
    one environment to the other. -/
def Took (steps : List (Operator × Node)) (env env' : Environment) : Prop :=
  (takeSteps steps env).result = .ok () ∧ (takeSteps steps env).env = env'

theorem Took.nil {env : Environment} : Took [] env env := ⟨rfl, rfl⟩

theorem Took.append {first second : List (Operator × Node)} {env mid env' : Environment}
    (h : Took first env mid) (h' : Took second mid env') : Took (first ++ second) env env' := by
  induction first generalizing env with
  | nil =>
    obtain ⟨-, rfl⟩ := h
    exact h'
  | cons s first ih =>
    obtain ⟨hresult, henv⟩ := h
    obtain ⟨v, hstep, hnext⟩ := ok_of_bind hresult
    rw [takeSteps, env_bind hstep] at henv
    obtain ⟨hresult', henv'⟩ := ih ⟨hnext, henv⟩
    exact ⟨(result_bind hstep).trans hresult', (env_bind hstep).trans henv'⟩

/-- An action that does nothing to the environment but to take these steps: the first of
    them if it fails, and all if it does not. -/
def Takes {α : Type} (x : Action α) (steps : List (Operator × Node)) : Prop :=
  ∀ env, ∃ done left, steps = done ++ left ∧ Took done env (x env).env ∧
    ∀ a, (x env).result = .ok a → left = []

namespace Takes

variable {α β : Type} {x : Action α} {f : α → Action β} {steps more : List (Operator × Node)}

/-- An action that leaves the environment alone. -/
theorem still (h : ∀ env, (x env).env = env) : Takes x [] :=
  fun env => ⟨[], [], rfl, (h env).symm ▸ .nil, fun _ _ => rfl⟩

theorem bind (hx : Takes x steps) (hf : ∀ a, Takes (f a) more) :
    Takes (x >>= f) (steps ++ more) := by
  intro env
  obtain ⟨done, left, rfl, htook, hall⟩ := hx env
  cases hfirst : (x env).result with
  | error e =>
    refine ⟨done, left ++ more, by simp, ?_, fun a h => ?_⟩
    · rwa [env_bind_error hfirst]
    · rw [result_bind_error hfirst] at h
      cases h
  | ok a =>
    obtain rfl := hall a hfirst
    obtain ⟨done', left', rfl, htook', hall'⟩ := hf a (x env).env
    refine ⟨done ++ done', left', by simp, ?_, fun b h => ?_⟩
    · rw [env_bind hfirst]
      exact htook.append htook'
    · rw [result_bind hfirst] at h
      exact hall' b h

end Takes

/-! ## What fails leaves the environment alone -/

/-- An action that leaves the environment as it was if it fails. -/
def Atomic {α : Type} (x : Action α) : Prop :=
  ∀ env e, (x env).result = .error e → (x env).env = env

namespace Atomic

variable {α β : Type} {x : Action α} {f : α → Action β}

theorem still (h : ∀ env, (x env).env = env) : Atomic x := fun env _ _ => h env

/-- An action that does not fail. -/
theorem sure {a : α} (h : ∀ env, (x env).result = .ok a) : Atomic x := by
  intro env e herror
  rw [h env] at herror
  cases herror

theorem after (hx : ∀ env, (x env).env = env) (hf : ∀ a, Atomic (f a)) : Atomic (x >>= f) := by
  intro env e herror
  rcases error_of_bind herror with hfirst | ⟨a, hfirst, hsecond⟩
  · rw [env_bind_error hfirst, hx env]
  · rw [env_bind hfirst, hf a _ e hsecond, hx env]

end Atomic

theorem env_lift {α : Type} (result : Except RuntimeFault α) (env : Environment) :
    (Action.lift result env).env = env := by
  cases result <;> rfl

theorem env_readVariable (target : Node) (env : Environment) :
    (readVariable target env).env = env := by
  unfold readVariable
  cases target.collection? <;> rfl

theorem atomic_stepVariable (op : Operator) (target : Node) : Atomic (stepVariable op target) := by
  refine .after (env_readVariable target) fun found => ?_
  cases found with
  | number old => exact .sure fun _ => rfl
  | text s => exact .still fun _ => rfl
  | other content => exact .still fun _ => rfl

theorem atomic_step (op : Operator) (a : Node) : Atomic (step op a) := by
  unfold step
  split
  · exact atomic_stepVariable op _
  · exact atomic_stepVariable op _
  · exact .still fun _ => rfl

theorem env_assigned (target : Node) (op : Operator) (value : Value) (env : Environment) :
    (assigned target op value env).env = env := by
  unfold assigned
  split
  · rfl
  · cases op.compound? with
    | none => rfl
    | some op =>
      show (Action.lift (applyBinary op (env.read target) value) env).env = env
      exact env_lift _ env

theorem atomic_assign (target : Node) (op : Operator) (value : Value) :
    Atomic (assign target op value) := by
  unfold assign
  split
  · exact .still fun _ => rfl
  · exact .after (env_assigned target op value) fun stored => .sure fun _ => rfl

theorem atomic_jump (value : Value) : Atomic (jump value) := by
  cases value with
  | number n => exact .sure fun _ => rfl
  | text s => exact .still fun _ => rfl
  | other content => exact .still fun _ => rfl

/-! ## Expressions -/

theorem takes_step (op : Operator) (a : Node) : Takes (step op a) [(op, a)] := by
  intro env
  cases hstep : (step op a env).result with
  | error e =>
    refine ⟨[], [(op, a)], rfl, ?_, fun _ h => (nomatch h)⟩
    rw [atomic_step op a env e hstep]
    exact .nil
  | ok v =>
    refine ⟨[(op, a)], [], rfl, ⟨?_, ?_⟩, fun _ _ => rfl⟩
    · rw [takeSteps, result_bind hstep]
      rfl
    · rw [takeSteps, env_bind hstep]
      rfl

/-- Evaluation does nothing but to take the steps of the expression. -/
theorem takes_evaluate (e : Node) : Takes (evaluate e) e.steps := by
  fun_induction evaluate e with
  | case1 a ih => exact ih
  | case2 | case3 | case4 => exact .still fun _ => rfl
  | case5 | case6 => exact .still (env_readVariable _)
  | case7 a ih => exact ih
  | case8 op a hstep =>
    rw [steps, if_pos hstep]
    exact takes_step op a
  | case9 op a hstep ih =>
    rw [steps, if_neg hstep, ← List.append_nil a.steps]
    exact ih.bind fun v => .still (env_lift _)
  | case10 op a b iha ihb =>
    rw [steps, ← List.append_nil b.steps]
    exact iha.bind fun left => ihb.bind fun right => .still (env_lift _)
  | case11 a =>
    have hnone : a.steps = [] := by
      unfold steps
      split <;> simp_all
    rw [hnone]
    exact .still fun _ => rfl

/-! ## Stages of a line -/

/-- What a line does at a time: a statement, or the test of a condition. -/
inductive Stage where
  | statement (s : Node)
  | condition (c : Node)

namespace Stage

def run : Stage → Action Unit
  | .statement s => execute s
  | .condition c => do let _ ← test c

/-- The steps of variables in the expression of a stage. -/
def steps : Stage → List (Operator × Node)
  | .statement (.goto a) | .statement (.assignment _ _ a) | .statement (.evaluation a) => a.steps
  | .statement _ => []
  | .condition c => c.steps

def statement? : Stage → Option Node
  | .statement s => some s
  | .condition _ => none

/-- The stage with which a statement starts. -/
def of? (s : Node) : Option Stage :=
  if s.isRemark then none
  else
    match s.branches? with
    | some (c, _, _) => some (.condition c)
    | none => some (.statement s)

end Stage

/-- Run stages, one after the other. -/
def runStages : List Stage → Action Unit
  | [] => Action.pure ()
  | stage :: more => do
    stage.run
    runStages more

/-- `Reaches ss env trail rest mid`: running the statements `ss` from `env` on goes through
    the stages `trail` without a fault, and then `rest` is to be run from `mid` on. -/
inductive Reaches : List Node → Environment → List Stage → List Node → Environment → Prop where
  | here {ss env} : Reaches ss env [] ss env
  | remark {s ss env trail rest mid} (kind : s.isRemark = true)
      (next : Reaches ss env trail rest mid) : Reaches (s :: ss) env trail rest mid
  | statement {s ss env trail rest mid} (kind : s.isSimple = true)
      (ran : (execute s env).result = .ok ())
      (next : Reaches ss (execute s env).env trail rest mid) :
      Reaches (s :: ss) env (.statement s :: trail) rest mid
  | branch {s c body otherwise ss env holds trail rest mid}
      (kind : s.branches? = some (c, body, otherwise))
      (tested : (test c env).result = .ok holds)
      (next : Reaches ((if holds then body else otherwise) ++ ss) (test c env).env trail rest mid) :
      Reaches (s :: ss) env (.condition c :: trail) rest mid

theorem executeAll_append (as bs : List Node) :
    executeAll (as ++ bs) = executeAll as >>= fun _ => executeAll bs := by
  induction as with
  | nil => rfl
  | cons a as ih =>
    rw [List.cons_append, executeAll, executeAll, ih]
    exact (bind_assoc _ _ _).symm

/-- A conditional puts the statements of a branch in front of those that follow it. -/
theorem executeAll_conditional {s c : Node} {body otherwise : List Node}
    (h : s.branches? = some (c, body, otherwise)) (ss : List Node) :
    executeAll (s :: ss) =
      test c >>= fun holds => executeAll ((if holds then body else otherwise) ++ ss) := by
  have hexecute : execute s =
      test c >>= fun holds => executeAll (if holds then body else otherwise) := by
    cases s with
    | ifThen c body | ifElse c body otherwise =>
      cases h
      rw [execute]
      congr
      funext holds
      cases holds <;> rfl
    | _ => cases h
  simp only [executeAll_append]
  rw [executeAll, hexecute]
  exact bind_assoc _ _ _

theorem execute_remark {s : Node} (h : s.isRemark = true) : execute s = Action.pure () := by
  fun_cases isRemark s with
  | case1 | case2 => rw [execute]
  | case3 _ hcomment hmisfit => simp [isRemark] at h

/-- What is no statement at all fails as such. -/
theorem simple_or_notAStatement {s : Node} (hremark : s.isRemark = false)
    (hbranches : s.branches? = none) :
    s.isSimple = true ∨ execute s = Action.fail (.tree (.notAStatement s)) := by
  fun_cases execute s with
  | case1 | case2 => cases hremark
  | case3 | case6 | case7 => exact .inl rfl
  | case4 | case5 => cases hbranches
  | case8 => exact .inr rfl

theorem sizeOf_append_le (as bs : List Node) : sizeOf (as ++ bs) ≤ sizeOf as + sizeOf bs := by
  induction as with
  | nil => simp
  | cons a as ih =>
    simp only [List.cons_append, List.cons.sizeOf_spec]
    omega

/-- With the statements of a branch in its place, a conditional takes less room. -/
theorem sizeOf_branch {s c : Node} {body otherwise : List Node}
    (h : s.branches? = some (c, body, otherwise)) (holds : Bool) (ss : List Node) :
    sizeOf ((if holds then body else otherwise) ++ ss) < sizeOf (s :: ss) := by
  have hpos (as : List Node) : 0 < sizeOf as := by
    cases as <;> simp only [List.nil.sizeOf_spec, List.cons.sizeOf_spec] <;> omega
  have happend := sizeOf_append_le (if holds then body else otherwise) ss
  have hbranch : sizeOf (if holds then body else otherwise) < sizeOf s := by
    cases s with
    | ifThen c body | ifElse c body otherwise =>
      cases h
      have hbody := hpos body
      have hnil : sizeOf ([] : List Node) = 1 := List.nil.sizeOf_spec
      simp only [Node.ifThen.sizeOf_spec, Node.ifElse.sizeOf_spec]
      split <;> omega
    | _ => cases h
  simp only [List.cons.sizeOf_spec]
  omega

/-- Statements that fail do so at a stage that is reached, and leave what it leaves. -/
theorem exists_stage_of_error {ss : List Node} {env : Environment} {f : Fault}
    (h : (executeAll ss env).result = .error f) :
    ∃ trail s rest mid stage, Reaches ss env trail (s :: rest) mid ∧ Stage.of? s = some stage ∧
      (stage.run mid).result = .error f ∧ (stage.run mid).env = (executeAll ss env).env := by
  -- A branch is run in the place of its conditional, so the induction is on the size.
  induction hn : sizeOf ss using Nat.strongRecOn generalizing ss env with
  | ind n ih =>
    subst hn
    cases ss with
    | nil => cases h
    | cons s ss =>
      have hshorter : sizeOf ss < sizeOf (s :: ss) := by
        simp only [List.cons.sizeOf_spec]
        omega
      cases hremark : s.isRemark with
      | true =>
        have hskip : executeAll (s :: ss) = executeAll ss := by
          rw [executeAll, execute_remark hremark]
          rfl
        rw [hskip] at h ⊢
        obtain ⟨trail, t, rest, mid, stage, hreaches, hraised⟩ := ih _ hshorter h rfl
        exact ⟨trail, t, rest, mid, stage, .remark hremark hreaches, hraised⟩
      | false =>
        cases hbranches : s.branches? with
        | some branches =>
          obtain ⟨c, body, otherwise⟩ := branches
          have hstage : Stage.of? s = some (.condition c) := by
            simp [Stage.of?, hremark, hbranches]
          rw [executeAll_conditional hbranches] at h ⊢
          rcases error_of_bind h with hfirst | ⟨holds, htested, hnext⟩
          · refine ⟨[], s, ss, env, .condition c, .here, hstage, result_bind_error hfirst, ?_⟩
            rw [Stage.run, env_bind_error hfirst, env_bind_error hfirst]
          · rw [env_bind htested]
            obtain ⟨trail, t, rest, mid, stage, hreaches, hraised⟩ :=
              ih _ (sizeOf_branch hbranches holds ss) hnext rfl
            exact ⟨_, t, rest, mid, stage, .branch hbranches htested hreaches, hraised⟩
        | none =>
          have hstage : Stage.of? s = some (.statement s) := by
            simp [Stage.of?, hremark, hbranches]
          rw [executeAll] at h ⊢
          rcases error_of_bind h with hfirst | ⟨_, hran, hnext⟩
          · refine ⟨[], s, ss, env, .statement s, .here, hstage, hfirst, ?_⟩
            rw [Stage.run, env_bind_error hfirst]
          · rw [env_bind hran]
            have hsimple : s.isSimple = true := by
              rcases simple_or_notAStatement hremark hbranches with hsimple | hfails
              · exact hsimple
              · rw [hfails] at hran
                cases hran
            obtain ⟨trail, t, rest, mid, stage, hreaches, hraised⟩ := ih _ hshorter hnext rfl
            exact ⟨_, t, rest, mid, stage, .statement hsimple hran hreaches, hraised⟩

/-! ## What is done up to a stage -/

theorem takes_test (c : Node) : Takes (test c) c.steps := by
  rw [← List.append_nil c.steps]
  exact (takes_evaluate c).bind fun v => .still fun _ => rfl

theorem env_of_takes_nil {α : Type} {x : Action α} (h : Takes x []) (env : Environment) :
    (x env).env = env := by
  obtain ⟨done, left, hnil, ⟨-, henv⟩, -⟩ := h env
  obtain ⟨rfl, -⟩ := List.append_eq_nil_iff.mp hnil.symm
  exact henv.symm

theorem every_branches {s c : Node} {body otherwise : List Node} {p : Node → Bool}
    (h : s.branches? = some (c, body, otherwise)) (hs : s.every p = true) (holds : Bool) :
    c.every p = true ∧ ∀ t ∈ if holds then body else otherwise, t.every p = true := by
  cases s with
  | ifThen c body | ifElse c body otherwise =>
    cases h
    simp only [every, Bool.and_eq_true, everyAll_iff] at hs
    cases holds <;> simp_all
  | _ => cases h

namespace Reaches

variable {ss rest : List Node} {env mid : Environment} {trail : List Stage}

/-- The stages of the trail can be run one after the other. -/
theorem ran (h : Reaches ss env trail rest mid) :
    (runStages trail env).result = .ok () ∧ (runStages trail env).env = mid := by
  induction h with
  | here => exact ⟨rfl, rfl⟩
  | remark _ _ ih => exact ih
  | statement _ hran _ ih =>
    have hrun : (Stage.run (.statement _) _).result = .ok () := hran
    exact ⟨(result_bind hrun).trans ih.1, (env_bind hrun).trans ih.2⟩
  | @branch s c _ _ _ env _ _ _ _ _ htested _ ih =>
    have hrun : (Stage.run (.condition c) env).result = .ok () := result_bind htested
    have henv : (Stage.run (.condition c) env).env = (test c env).env := env_bind htested
    rw [runStages, result_bind hrun, env_bind hrun, henv]
    exact ih

theorem simple (h : Reaches ss env trail rest mid) :
    ∀ s ∈ trail.filterMap Stage.statement?, s.isSimple = true := by
  induction h with
  | here => simp
  | remark _ _ ih => exact ih
  | statement hsimple _ _ ih => exact List.forall_mem_cons.mpr ⟨hsimple, ih⟩
  | branch _ _ _ ih => exact ih

/-- Without steps of variables, conditions change nothing, so the statements alone lead to
    the same place. -/
theorem ran_statements (h : Reaches ss env trail rest mid)
    (hss : ∀ s ∈ ss, s.every isStepless = true) :
    (∀ s ∈ rest, s.every isStepless = true) ∧
      (executeAll (trail.filterMap Stage.statement?) env).result = .ok () ∧
      (executeAll (trail.filterMap Stage.statement?) env).env = mid := by
  induction h with
  | here => exact ⟨hss, rfl, rfl⟩
  | remark _ _ ih => exact ih (List.forall_mem_cons.mp hss).2
  | @statement s _ _ trail _ _ _ hran _ ih =>
    obtain ⟨hrest, hresult, henv⟩ := ih (List.forall_mem_cons.mp hss).2
    have hcons : (Stage.statement s :: trail).filterMap Stage.statement? =
        s :: trail.filterMap Stage.statement? := rfl
    rw [hcons, executeAll, result_bind hran, env_bind hran]
    exact ⟨hrest, hresult, henv⟩
  | @branch s c _ _ ss env holds _ _ _ hbranches _ _ ih =>
    obtain ⟨hs, hss⟩ := List.forall_mem_cons.mp hss
    obtain ⟨hc, hbranch⟩ := every_branches hbranches hs holds
    have htest : (test c env).env = env := env_of_takes_nil (steps_eq_nil hc ▸ takes_test c) env
    rw [htest] at ih
    exact ih (List.forall_mem_append.mpr ⟨hbranch, hss⟩)

end Reaches

/-! ## What a stage leaves that fails -/

theorem nextLine_stepVariable (op : Operator) (target : Node) (env : Environment) :
    (stepVariable op target env).env.nextLine = env.nextLine := by
  cases hread : (readVariable target env).result with
  | error e => rw [stepVariable, env_bind_error hread, env_readVariable]
  | ok found =>
    rw [stepVariable, env_bind hread, env_readVariable]
    cases found <;> rfl

theorem nextLine_step (op : Operator) (a : Node) (env : Environment) :
    (step op a env).env.nextLine = env.nextLine := by
  unfold step
  split
  · exact nextLine_stepVariable op _ env
  · exact nextLine_stepVariable op _ env
  · rfl

theorem Took.nextLine {steps : List (Operator × Node)} {env env' : Environment}
    (h : Took steps env env') : env'.nextLine = env.nextLine := by
  induction steps generalizing env with
  | nil =>
    obtain ⟨-, rfl⟩ := h
    rfl
  | cons s steps ih =>
    obtain ⟨hresult, henv⟩ := h
    obtain ⟨v, hstep, hnext⟩ := ok_of_bind hresult
    rw [takeSteps, env_bind hstep] at henv
    exact (ih ⟨hnext, henv⟩).trans (nextLine_step ..)

/-- If what follows an expression fails, nothing is left of it but the steps of the
    expression. -/
theorem Takes.of_error {α β : Type} {x : Action α} {g : α → Action β}
    {steps : List (Operator × Node)} (hx : Takes x steps) (hg : ∀ a, Atomic (g a))
    {env : Environment} {e : Fault} (h : ((x >>= g) env).result = .error e) :
    ∃ done left, steps = done ++ left ∧ Took done env ((x >>= g) env).env := by
  obtain ⟨done, left, hsteps, htook, -⟩ := hx env
  refine ⟨done, left, hsteps, ?_⟩
  rcases error_of_bind h with hfirst | ⟨a, hfirst, hsecond⟩
  · rwa [env_bind_error hfirst]
  · rwa [env_bind hfirst, hg a _ e hsecond]

theorem Stage.of?_eq_some {s : Node} {stage : Stage} (h : Stage.of? s = some stage) :
    (∃ c body otherwise, s.branches? = some (c, body, otherwise) ∧ stage = .condition c) ∨
      stage = .statement s ∧
        (s.isSimple = true ∨ execute s = Action.fail (.tree (.notAStatement s))) := by
  unfold Stage.of? at h
  split at h
  · cases h
  · next hremark =>
    split at h
    · next c body otherwise hbranches =>
      cases h
      exact .inl ⟨c, body, otherwise, hbranches, rfl⟩
    · next hbranches =>
      cases h
      exact .inr ⟨rfl, simple_or_notAStatement (by simpa using hremark) hbranches⟩

/-- Of a stage that fails nothing is left but steps of variables. -/
theorem Stage.took_of_error {s : Node} {stage : Stage} (hstage : Stage.of? s = some stage)
    {env : Environment} {e : Fault} (h : (stage.run env).result = .error e) :
    ∃ done left, stage.steps = done ++ left ∧ Took done env (stage.run env).env := by
  rcases Stage.of?_eq_some hstage with ⟨c, _, _, -, rfl⟩ | ⟨rfl, hsimple | hfails⟩
  · exact (takes_test c).of_error (fun _ => .sure fun _ => rfl) h
  · cases s with
    | goto a => exact (takes_evaluate a).of_error atomic_jump h
    | assignment target op a => exact (takes_evaluate a).of_error (atomic_assign target op) h
    | evaluation a => exact (takes_evaluate a).of_error (fun _ => .sure fun _ => rfl) h
    | _ => cases hsimple
  · refine ⟨[], _, rfl, ?_⟩
    rw [Stage.run, hfails]
    exact .nil

theorem Stage.steps_eq_nil {s : Node} {stage : Stage} (hstage : Stage.of? s = some stage)
    (hs : s.every isStepless = true) : stage.steps = [] := by
  rcases Stage.of?_eq_some hstage with ⟨c, _, _, hbranches, rfl⟩ | ⟨rfl, -⟩
  · exact Node.steps_eq_nil (every_branches hbranches hs true).1
  · cases s with
    | goto a | evaluation a | assignment target op a =>
      simp only [every, Bool.and_eq_true] at hs
      simp only [Stage.steps]
      exact Node.steps_eq_nil (by simp [hs])
    | _ => rfl

/-! ## Lines -/

/-- `BreaksOff statements env trail stage mid f final`: running the statements from `env` on
    goes through the trail up to `mid`, where the stage fails with `f` and leaves `final`. -/
structure BreaksOff (statements : List Node) (env : Environment) (trail : List Stage)
    (stage : Stage) (mid : Environment) (f : Fault) (final : Environment) : Prop where
  /-- It is the turn of the stage behind the trail. -/
  reached : ∃ s rest, Reaches statements env trail (s :: rest) mid ∧ Stage.of? s = some stage
  /-- The trail holds tests of conditions and simple statements. -/
  simple : ∀ s ∈ trail.filterMap Stage.statement?, s.isSimple = true
  /-- So does the stage itself, unless it is no statement at all. -/
  proper : ∀ s, stage = .statement s → s.isSimple = true ∨ f = .tree (.notAStatement s)
  ran : (runStages trail env).result = .ok () ∧ (runStages trail env).env = mid
  raised : (stage.run mid).result = .error f ∧ (stage.run mid).env = final
  /-- What the stage leaves is what the first of its steps do. -/
  left : ∃ done left, stage.steps = done ++ left ∧ Took done mid final
  counter : final.nextLine = mid.nextLine

theorem env_reportLine (line : Node) (env : Environment) : (reportLine line env).env = env := by
  unfold reportLine
  cases line.unwritable? <;> rfl

theorem unwritable_of_reportLine {line : Node} {env : Environment} {f : Fault}
    (h : (reportLine line env).result = .error f) : ∃ name, f = .tree (.unwritable name) := by
  unfold reportLine at h
  cases hname : line.unwritable? with
  | none =>
    rw [hname] at h
    cases h
  | some name =>
    rw [hname] at h
    cases h
    exact ⟨name, rfl⟩

/-- A stage that is reached and fails breaks the statements off. -/
theorem Reaches.breaksOff {statements rest : List Node} {env mid : Environment}
    {trail : List Stage} {s : Node} {stage : Stage} {f : Fault}
    (hreaches : Reaches statements env trail (s :: rest) mid)
    (hstage : Stage.of? s = some stage) (hraised : (stage.run mid).result = .error f) :
    BreaksOff statements env trail stage mid f (stage.run mid).env := by
  obtain ⟨done, left, hsteps, htook⟩ := Stage.took_of_error hstage hraised
  refine ⟨⟨s, rest, hreaches, hstage⟩, hreaches.simple, ?_, hreaches.ran, ⟨hraised, rfl⟩,
    ⟨done, left, hsteps, htook⟩, htook.nextLine⟩
  rintro t rfl
  rcases Stage.of?_eq_some hstage with ⟨_, _, _, -, heq⟩ | ⟨heq, hsimple | hfails⟩
  · cases heq
  · cases heq
    exact .inl hsimple
  · cases heq
    rw [Stage.run, hfails] at hraised
    cases hraised
    exact .inr rfl

/-- A line that fails breaks off at one of its stages, unless it cannot be written. Without
    steps of variables that stage changes nothing, and the simple statements in front of it
    lead to the same environment. -/
theorem runLine_breaksOff {statements : List Node} {env : Environment} {f : Fault}
    (h : (runLine (.line statements) env).result = .error f) :
    let final := (runLine (.line statements) env).env
    (∃ name, f = .tree (.unwritable name) ∧ final = env) ∨
      ∃ trail stage mid, BreaksOff statements env trail stage mid f final ∧
        ((Node.line statements).every isStepless = true →
          final = mid ∧
            (executeAll (trail.filterMap Stage.statement?) env).result = .ok () ∧
            (executeAll (trail.filterMap Stage.statement?) env).env = final) := by
  intro final
  rcases error_of_bind h with hreport | ⟨_, hreport, hran⟩
  · obtain ⟨name, hf⟩ := unwritable_of_reportLine hreport
    exact .inl ⟨name, hf, (env_bind_error hreport).trans (env_reportLine _ env)⟩
  · rw [env_reportLine] at hran
    have hfinal : final = (executeAll statements env).env := by
      rw [← env_reportLine (.line statements) env]
      exact env_bind hreport
    obtain ⟨trail, s, rest, mid, stage, hreaches, hstage, hraised, henv⟩ :=
      exists_stage_of_error hran
    rw [hfinal, ← henv]
    refine .inr ⟨trail, stage, mid, hreaches.breaksOff hstage hraised, fun hstepless => ?_⟩
    have hall : ∀ s ∈ statements, s.every isStepless = true := by
      simpa [every, isStepless] using hstepless
    obtain ⟨hrest, hresult, hmid⟩ := hreaches.ran_statements hall
    have hsame : (stage.run mid).env = mid := by
      obtain ⟨done, left, hsteps, -, hdone⟩ := Stage.took_of_error hstage hraised
      rw [Stage.steps_eq_nil hstage (hrest s List.mem_cons_self)] at hsteps
      obtain ⟨rfl, -⟩ := List.append_eq_nil_iff.mp hsteps.symm
      exact hdone.symm
    exact ⟨hsame, hresult, hmid.trans hsame.symm⟩

/-- A conditional with a jump in it, and a quotient that has no value; both read a variable,
    and step it first if `stepping`. -/
def brokenStatements (stepping : Bool) : List Node :=
  let name (text : String) : Node := .identifier ⟨text, false⟩
  let operand (text : String) : Node :=
    if stepping then .unary .preIncrement (.value (name text)) else .value (name text)
  let number (n : Int) : Node := .value (.number (.ofInt n))
  [.ifElse (operand "a") [.assignment (name "b") .assign (number 1), .goto (number 3)]
      [.assignment (name "c") .assign (number 1)],
    .assignment (name "d") .addAssign (.binary .div (operand "b") (number 0)),
    .assignment (name "c") .assign (number 2)]

/-- With steps the jump is taken, and the one of the quotient that fails is left. Without
    them the assignment of the other branch is left alone. -/
theorem runLine_breaksOff_brokenStatements :
    (∃ trail stage mid, BreaksOff (brokenStatements true) {} trail stage mid
        (.runtime (.arithmetic .divisionByZero))
        (runLine (.line (brokenStatements true)) {}).env) ∧
      (runLine (.line (brokenStatements true)) {}).env.nextLine = 3 ∧
      (runLine (.line (brokenStatements true)) {}).env.get? (.identifier ⟨"b", false⟩) =
        some (.number (.ofInt 2)) ∧
      ∃ ss : List Node, (∀ s ∈ ss, s.isSimple = true) ∧ (executeAll ss {}).result = .ok () ∧
        (executeAll ss {}).env = (runLine (.line (brokenStatements false)) {}).env := by
  have hstepping : (runLine (.line (brokenStatements true)) {}).result =
      .error (.runtime (.arithmetic .divisionByZero)) := by rfl
  have hplain : (runLine (.line (brokenStatements false)) {}).result =
      .error (.runtime (.arithmetic .divisionByZero)) := by rfl
  obtain ⟨_, hf, -⟩ | ⟨trail, stage, mid, hbreaks, -⟩ := runLine_breaksOff hstepping
  · cases hf
  obtain ⟨_, hf, -⟩ | ⟨trail', _, _, hbreaks', hstepless⟩ := runLine_breaksOff hplain
  · cases hf
  obtain ⟨-, hresult, henv⟩ := hstepless (by decide +kernel)
  exact ⟨⟨trail, stage, mid, hbreaks⟩, by decide +kernel, by decide +kernel,
    _, hbreaks'.simple, hresult, henv⟩

end Yolol.Run

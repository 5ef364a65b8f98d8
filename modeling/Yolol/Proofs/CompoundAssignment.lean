-- SUMMARY: A compound assignment does what its expansion does.
import Yolol.Proofs.Compositional
import Yolol.Proofs.FailingLine
import Yolol.Proofs.SameVariable

/-!
# Compound assignments

`t += e` is short for `t = t + e`, but the two look at `t` at different times: the short form
evaluates `e` first, the long one reads `t` first. All that an expression does to an environment
are the steps in it. So unless `e` steps `t` itself, the order makes no difference, and both
forms do the same to every environment, whether they succeed or fail.
-/

namespace Yolol

namespace Node

/-- The expression steps the variable. -/
def stepsVariable (e target : Node) : Bool :=
  e.steps.any fun
    | (_, .value w) => target.agrees w
    | _ => false

end Node

namespace Run

open Node

/-! ## Steps of other variables -/

theorem env_stepVariable_cases (op : Operator) (w : Node) (env : Environment) :
    (stepVariable op w env).env = env ∨
      w.collection? = none ∧ ∃ value, (stepVariable op w env).env = env.set w value := by
  cases hcollection : w.collection? with
  | some name =>
    have hread : (readVariable w env).result = .error (.tree (.notAVariable name)) := by
      rw [readVariable, hcollection]
      rfl
    rw [stepVariable, env_bind_error hread, env_readVariable]
    exact .inl rfl
  | none =>
    have hread : (readVariable w env).result = .ok (env.read w) := by
      rw [readVariable, hcollection]
      rfl
    rw [stepVariable, env_bind hread, env_readVariable]
    cases env.read w with
    | number old => exact .inr ⟨rfl, _, rfl⟩
    | text s | other content => exact .inl rfl

/-- A step sets the variable that it stands at, or changes nothing. -/
theorem env_step_cases (op : Operator) (a : Node) (env : Environment) :
    (step op a env).env = env ∨
      ∃ w value, a = .value w ∧ w.isName = true ∧ w.collection? = none ∧
        (step op a env).env = env.set w value := by
  unfold step
  split
  · rcases env_stepVariable_cases op (.identifier _) env with hsame | ⟨hscalar, value, hset⟩
    · exact .inl hsame
    · exact .inr ⟨_, value, rfl, rfl, hscalar, hset⟩
  · rcases env_stepVariable_cases op (.misfit (.name _) _) env with hsame | ⟨hscalar, value, hset⟩
    · exact .inl hsame
    · exact .inr ⟨_, value, rfl, rfl, hscalar, hset⟩
  · exact .inl rfl

theorem get?_step {target a : Node} (hother : ∀ w, a = .value w → target.agrees w = false)
    (op : Operator) (env : Environment) :
    (step op a env).env.get? target = env.get? target := by
  rcases env_step_cases op a env with hsame | ⟨w, value, rfl, hname, hscalar, hset⟩
  · rw [hsame]
  · rw [hset, env.get?_set_of_not_agrees hname hscalar (hother w rfl)]

theorem Took.get? {target : Node} {steps : List (Operator × Node)} {env env' : Environment}
    (h : Took steps env env')
    (hother : ∀ s ∈ steps, ∀ w, s.2 = .value w → target.agrees w = false) :
    env'.get? target = env.get? target := by
  induction steps generalizing env with
  | nil =>
    obtain ⟨-, rfl⟩ := h
    rfl
  | cons s steps ih =>
    obtain ⟨hfirst, hmore⟩ := List.forall_mem_cons.mp hother
    obtain ⟨hresult, henv⟩ := h
    obtain ⟨v, hstep, hnext⟩ := ok_of_bind hresult
    rw [takeSteps, env_bind hstep] at henv
    exact (ih ⟨hnext, henv⟩ hmore).trans (get?_step hfirst ..)

/-- Evaluating an expression leaves a variable alone that it does not step. -/
theorem read_evaluate {target e : Node} (hsteps : e.stepsVariable target = false)
    (env : Environment) : (evaluate e env).env.read target = env.read target := by
  obtain ⟨done, left, hparts, htook, -⟩ := takes_evaluate e env
  have hother : ∀ s ∈ done, ∀ w, s.2 = .value w → target.agrees w = false := by
    rintro ⟨op, a⟩ hs w rfl
    have hmem : (op, .value w) ∈ e.steps := hparts ▸ List.mem_append_left left hs
    simpa using List.any_eq_false.mp hsteps _ hmem
  rw [Environment.read, Environment.read, htook.get? hother]

/-! ## The order of reading -/

/-- A variable can be read before or after an action that leaves it alone. -/
theorem readVariable_comm {α β : Type} {target : Node} {x : Action α}
    (hscalar : target.collection? = none)
    (hx : ∀ env, (x env).env.read target = env.read target) (f : Value → α → Action β) :
    (readVariable target >>= fun held => x >>= f held) =
      x >>= fun a => readVariable target >>= fun held => f held a := by
  have hread (env : Environment) : readVariable target env = ⟨.ok (env.read target), env, []⟩ := by
    rw [readVariable, hscalar]
    rfl
  funext env
  show Action.bind _ _ env = Action.bind _ _ env
  simp only [bind, Action.bind, hread, hx, List.nil_append]

/-- Assigning to a variable stores a value under it and reports that. -/
theorem assign_eq {target : Node} (hscalar : target.collection? = none) (op : Operator)
    (value : Value) :
    assign target op value = assigned target op value >>= assign target .assign := by
  have hstore : assign target .assign = fun stored =>
      Action.modifyEnv (·.set target stored) >>= fun _ =>
        Action.report ⟨"assign " ++ target.source ++ " = " ++ stored.source, 2⟩ := by
    funext stored
    rw [assign, hscalar]
    rfl
  rw [hstore, assign, hscalar]

theorem evaluate_name {target : Node} (hname : target.isName = true) :
    evaluate (.value target) = readVariable target := by
  unfold isName at hname
  split at hname
  · rw [evaluate, evaluate]
  · rw [evaluate, evaluate]
  · cases hname

/-- A compound assignment and the assignment of the operation that it is short for do the same,
    if the expression does not step the target. -/
theorem compound_assignment_expands {target e : Node} {op inner : Operator}
    (hop : op.compound? = some inner) (hname : target.isName = true)
    (hscalar : target.collection? = none) (hsteps : e.stepsVariable target = false)
    (env : Environment) :
    execute (.assignment target op e) env =
      execute (.assignment target .assign (.binary inner (.value target) e)) env := by
  refine congrFun ?_ env
  calc execute (.assignment target op e)
    _ = evaluate e >>= fun value => readVariable target >>= fun held =>
        Action.lift (applyBinary inner held value) >>= assign target .assign := by
      simp only [execute, assign_eq hscalar op, assigned_compound hscalar hop, bind_assoc]
    _ = readVariable target >>= fun held => evaluate e >>= fun value =>
        Action.lift (applyBinary inner held value) >>= assign target .assign :=
      (readVariable_comm hscalar (read_evaluate hsteps) _).symm
    _ = execute (.assignment target .assign (.binary inner (.value target) e)) := by
      rw [execute, evaluate, evaluate_name hname]
      simp only [bind_assoc]

/-- A shared variable is stepped in front of the target, of which a multiple is taken away. -/
def steppingExpression : Node :=
  .binary .mul (.unary .preIncrement (.value (.identifier ⟨"b", true⟩)))
    (.value (.identifier ⟨"a", false⟩))

/-- The target is set already, so it stays in front of the variable that is stepped. -/
theorem compound_assignment_expands_stepping :
    let target : Node := .identifier ⟨"a", false⟩
    let env := ({ store := ⟨[], List.nodup_nil⟩ } : Environment).set target (.number (.ofInt 5))
    let ran := execute (.assignment target .assign
      (.binary .sub (.value target) steppingExpression)) env
    steppingExpression.stepsVariable target = false ∧
      execute (.assignment target .subAssign steppingExpression) env = ran ∧
      ran.env.get? target = some (.number .zero) ∧
      ran.env.store.keys = [target, .identifier ⟨"b", true⟩] := by
  intro target env ran
  have hsteps : steppingExpression.stepsVariable target = false := by decide
  have hsame : execute (.assignment target .subAssign steppingExpression) env = ran :=
    compound_assignment_expands rfl rfl rfl hsteps env
  refine ⟨hsteps, hsame, ?_⟩
  rw [← hsame]
  decide +kernel

/-- An expression that steps the target itself gives another value: `t += t++` is one and
    `t = t + t++` is zero. -/
example :
    let target : Node := .identifier ⟨"t", false⟩
    let stepped := Node.unary .postIncrement (.value target)
    let env : Environment := { store := ⟨[], List.nodup_nil⟩ }
    (execute (.assignment target .addAssign stepped) env).env.get? target =
        some (.number .one) ∧
      (execute (.assignment target .assign (.binary .add (.value target) stepped)) env).env.get?
        target = some (.number .zero) := by
  decide +kernel

end Run

end Yolol

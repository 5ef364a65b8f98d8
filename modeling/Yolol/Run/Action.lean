-- SUMMARY: Computations on an environment that may fail and that keep what they did.
import Yolol.Environment
import Yolol.Run.Fault
import Yolol.Trace

/-!
# Actions

An action changes an environment and gives a value or a fault. A fault ends the
action, but what it has done by then stays done and what it has reported stays
reported.
-/

namespace Yolol.Run

/-- What an action leaves behind. -/
structure Outcome (α : Type) where
  result : Except Fault α
  env : Environment
  trace : List Message := []

/-- A computation on an environment. -/
def Action (α : Type) := Environment → Outcome α

namespace Action

variable {α β : Type}

def pure (a : α) : Action α := fun env => ⟨.ok a, env, []⟩

/-- Go on with the value of the first action, unless it fails. -/
def bind (x : Action α) (f : α → Action β) : Action β := fun env =>
  let first := x env
  match first.result with
  | .error e => ⟨.error e, first.env, first.trace⟩
  | .ok a =>
    let second := f a first.env
    ⟨second.result, second.env, first.trace ++ second.trace⟩

instance : Monad Action where
  pure := Action.pure
  bind := Action.bind

def fail (e : Fault) : Action α := fun env => ⟨.error e, env, []⟩

def getEnv : Action Environment := fun env => ⟨.ok env, env, []⟩

def modifyEnv (f : Environment → Environment) : Action Unit := fun env => ⟨.ok (), f env, []⟩

/-- Report a message. -/
def report (m : Message) : Action Unit := fun env => ⟨.ok (), env, [m]⟩

/-- The value of an operation that may fail. -/
def lift : Except RuntimeFault α → Action α
  | .ok a => Action.pure a
  | .error e => fail (.runtime e)

end Action

/-! ## Actions one after the other -/

section
variable {α β : Type} {x : Action α} {f : α → Action β} {env : Environment} {a : α} {b : β}
  {e : Fault}

theorem result_bind (h : (x env).result = .ok a) :
    ((x >>= f) env).result = (f a (x env).env).result := by
  show (Action.bind x f env).result = _
  simp only [Action.bind, h]

theorem env_bind (h : (x env).result = .ok a) :
    ((x >>= f) env).env = (f a (x env).env).env := by
  show (Action.bind x f env).env = _
  simp only [Action.bind, h]

theorem result_bind_error (h : (x env).result = .error e) :
    ((x >>= f) env).result = .error e := by
  show (Action.bind x f env).result = _
  simp only [Action.bind, h]

theorem env_bind_error (h : (x env).result = .error e) : ((x >>= f) env).env = (x env).env := by
  show (Action.bind x f env).env = _
  simp only [Action.bind, h]

/-- What succeeds as a whole succeeds in both parts. -/
theorem ok_of_bind (h : ((x >>= f) env).result = .ok b) :
    ∃ a, (x env).result = .ok a ∧ (f a (x env).env).result = .ok b := by
  cases hfirst : (x env).result with
  | error e =>
    rw [result_bind_error hfirst] at h
    cases h
  | ok a =>
    rw [result_bind hfirst] at h
    exact ⟨a, rfl, h⟩

/-- What fails as a whole fails in the first part or in the second. -/
theorem error_of_bind (h : ((x >>= f) env).result = .error e) :
    (x env).result = .error e ∨
      ∃ a, (x env).result = .ok a ∧ (f a (x env).env).result = .error e := by
  cases hfirst : (x env).result with
  | error g =>
    rw [result_bind_error hfirst] at h
    cases h
    exact .inl rfl
  | ok a =>
    rw [result_bind hfirst] at h
    exact .inr ⟨a, rfl, h⟩

end

theorem Action.bind_pure_self {α : Type} (x : Action α) : x.bind Action.pure = x := by
  funext env
  rcases hx : x env with ⟨_ | _, _, _⟩ <;> simp [Action.bind, Action.pure, hx]

theorem Action.bind_bind {α β γ : Type} (x : Action α) (f : α → Action β) (g : β → Action γ) :
    (x.bind f).bind g = x.bind fun a => (f a).bind g := by
  funext env
  simp only [Action.bind]
  cases (x env).result with
  | error e => rfl
  | ok a => cases hf : (f a (x env).env).result <;> simp [hf]

instance : LawfulMonad Action :=
  .mk' Action Action.bind_pure_self (fun _ _ => rfl) Action.bind_bind

end Yolol.Run

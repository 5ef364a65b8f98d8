-- SUMMARY: A line that was read from source text fails only through faults of the program.
import Yolol.Proofs.Compositional

/-!
# Runtime safety

A tree that makes no sense ends a run, but the parser builds none. In the trees that it
does build every operator has what it asks for, every target of an assignment is a
variable, and every name is a text. Such a line can fail only with a runtime fault, and
while it runs nothing touches the error of the environment.
-/

namespace Yolol.Run

open Node

/-! ## Guarded actions -/

/-- An action that fails only with runtime faults, and leaves the error alone. -/
structure Guarded {α : Type} (x : Action α) : Prop where
  runtime : ∀ env f, (x env).result = .error f → ∃ r, f = .runtime r
  error : ∀ env, (x env).env.error = env.error

namespace Guarded

variable {α β : Type}

theorem pure (a : α) : Guarded (Action.pure a) :=
  ⟨fun _ _ h => (nomatch h), fun _ => rfl⟩

theorem getEnv : Guarded Action.getEnv := ⟨fun _ _ h => (nomatch h), fun _ => rfl⟩

theorem report (m : Message) : Guarded (Action.report m) :=
  ⟨fun _ _ h => (nomatch h), fun _ => rfl⟩

theorem modifyEnv {f : Environment → Environment} (hf : ∀ env, (f env).error = env.error) :
    Guarded (Action.modifyEnv f) :=
  ⟨fun _ _ h => (nomatch h), hf⟩

theorem fail (r : RuntimeFault) : Guarded (Action.fail (.runtime r) : Action α) :=
  ⟨fun _ _ h => ⟨r, by cases h; rfl⟩, fun _ => rfl⟩

theorem bind {x : Action α} {f : α → Action β} (hx : Guarded x) (hf : ∀ a, Guarded (f a)) :
    Guarded (x >>= f) := by
  constructor
  · intro env fault h
    rcases error_of_bind h with hfirst | ⟨a, -, hsecond⟩
    · exact hx.runtime env fault hfirst
    · exact (hf a).runtime _ fault hsecond
  · intro env
    cases hfirst : (x env).result with
    | error e =>
      rw [env_bind_error hfirst]
      exact hx.error env
    | ok a =>
      rw [env_bind hfirst]
      exact ((hf a).error _).trans (hx.error env)

end Guarded

variable {ids : List Identifier}

theorem compositional_guarded : Compositional ids @Guarded where
  pure := .pure
  fail := .fail
  report := .report
  read _ _ := Guarded.getEnv.bind fun _ => .pure _
  set _ _ _ := .modifyEnv fun _ => rfl
  move _ := .modifyEnv fun _ => rfl
  bind := .bind

/-! ## Lines -/

theorem unwritable?_of_builtFrom {e : Node} (h : BuiltFrom ids e) : e.unwritable? = none := by
  induction h with
  | number | text | misfit | identifier | step => rfl
  | group _ ih | unary _ _ ih => exact ih
  | binary _ _ iha ihb => simp [unwritable?, iha, ihb]

theorem unwritableIn?_eq_none {ss : List Node} (h : ∀ s ∈ ss, s.unwritable? = none) :
    Node.unwritableIn? ss = none := by
  induction ss with
  | nil => rfl
  | cons s ss ih =>
    obtain ⟨hs, hss⟩ := List.forall_mem_cons.mp h
    simp [Node.unwritableIn?, hs, ih hss]

theorem unwritable?_of_phrasedFrom {s : Node} (h : PhrasedFrom ids s) : s.unwritable? = none := by
  induction h with
  | comment | misfit => rfl
  | goto hvalue | evaluation hvalue => simp [unwritable?, unwritable?_of_builtFrom hvalue]
  | assignment _ _ hvalue => simp [unwritable?, unwritable?_of_builtFrom hvalue]
  | ifThen hc _ ih => simp [unwritable?, unwritable?_of_builtFrom hc, unwritableIn?_eq_none ih]
  | ifElse hc _ _ ihbody ihotherwise =>
    simp [unwritable?, unwritable?_of_builtFrom hc, unwritableIn?_eq_none ihbody,
      unwritableIn?_eq_none ihotherwise]

/-- A line as the parser builds it can fail only with a runtime fault. -/
theorem guarded_runLine {statements : List Node} (h : ∀ s ∈ statements, PhrasedFrom ids s) :
    Guarded (runLine (.line statements)) := by
  have hwritable : (Node.line statements).unwritable? = none :=
    unwritableIn?_eq_none fun s hs => unwritable?_of_phrasedFrom (h s hs)
  have hreport : Guarded (reportLine (.line statements)) := by
    unfold reportLine
    rw [hwritable]
    exact Guarded.getEnv.bind fun _ => .report _
  exact compositional_guarded.runLine hreport h

end Yolol.Run

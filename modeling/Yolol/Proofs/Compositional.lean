-- SUMMARY: What holds of the parts of a run holds of every parsed line.
import Yolol.Proofs.Variables
import Yolol.Run.Host

/-!
# Properties of actions

The statements of a parsed line are made of a few actions: reading and setting its own
variables, moving the line counter, reports and runtime faults. A property that these have,
and that carries over to actions one after the other, is had by the whole line.
-/

namespace Yolol.Run

open Node

/-- A compound assignment applies its operator to what the variable holds. -/
theorem assigned_compound {target : Node} (hscalar : target.collection? = none)
    {op inner : Operator} (hop : op.compound? = some inner) (value : Value) :
    assigned target op value =
      readVariable target >>= fun current => Action.lift (applyBinary inner current value) := by
  have hne : op ≠ .assign := by
    rintro rfl
    cases hop
  simp only [assigned, if_neg hne, hop, readVariable, hscalar]
  rfl

/-- A property of the actions that statements over the variables `ids` are made of, which
    carries over to actions one after the other. -/
structure Compositional (ids : List Identifier) (P : ∀ {α : Type}, Action α → Prop) : Prop where
  pure : ∀ {α : Type} (a : α), P (Action.pure a)
  fail : ∀ {α : Type} (r : RuntimeFault), P (Action.fail (.runtime r) : Action α)
  report : ∀ m, P (Action.report m)
  read : ∀ id ∈ ids, P (readVariable (.identifier id))
  set : ∀ id ∈ ids, ∀ value, P (Action.modifyEnv (·.set (.identifier id) value))
  move : ∀ n, P (Action.modifyEnv ({ · with nextLine := n }))
  bind : ∀ {α β : Type} {x : Action α} {f : α → Action β},
    P x → (∀ a, P (f a)) → P (x >>= f)

namespace Compositional

variable {ids : List Identifier} {P : ∀ {α : Type}, Action α → Prop}
  (hP : Compositional ids P)

include hP

/-! ## Expressions -/

theorem lift {α : Type} (result : Except RuntimeFault α) : P (Action.lift result) := by
  cases result with
  | ok a => exact hP.pure a
  | error r => exact hP.fail r

theorem stepVariable (op : Operator) {id : Identifier} (hid : id ∈ ids) :
    P (stepVariable op (.identifier id)) := by
  refine hP.bind (hP.read id hid) fun found => ?_
  cases found with
  | number old => exact hP.bind (hP.set id hid _) fun _ => hP.pure _
  | text s => exact hP.fail _
  | other content => exact hP.fail _

theorem evaluate {e : Node} (h : BuiltFrom ids e) : P (evaluate e) := by
  induction h with
  | number | text | misfit => exact hP.pure _
  | identifier hid => exact hP.read _ hid
  | group _ ih => exact ih
  | step hstep hid =>
    rw [Run.evaluate, if_pos hstep]
    exact hP.stepVariable _ hid
  | unary hplain _ ih =>
    rw [Run.evaluate, if_neg (by simp [hplain])]
    exact hP.bind ih fun _ => hP.lift _
  | binary _ _ iha ihb => exact hP.bind iha fun _ => hP.bind ihb fun _ => hP.lift _

/-! ## Statements -/

theorem assign {op : Operator} (hop : op.isAssignment = true) {id : Identifier} (hid : id ∈ ids)
    (value : Value) : P (assign (.identifier id) op value) := by
  have hassigned : P (assigned (.identifier id) op value) := by
    cases op with
    | assign => exact hP.pure _
    | addAssign | subAssign | mulAssign | divAssign | modAssign =>
      rw [assigned_compound rfl rfl]
      exact hP.bind (hP.read id hid) fun _ => hP.lift _
    | _ => cases hop
  exact hP.bind hassigned fun stored => hP.bind (hP.set id hid stored) fun _ => hP.report _

theorem jump (value : Value) : P (jump value) := by
  cases value with
  | number n => exact hP.bind (hP.move n.truncate) fun _ => hP.report _
  | text s => exact hP.fail _
  | other content => exact hP.fail _

theorem test {c : Node} (h : BuiltFrom ids c) : P (test c) :=
  hP.bind (hP.evaluate h) fun _ => hP.bind (hP.report _) fun _ => hP.pure _

theorem executeAll {ss : List Node} (h : ∀ s ∈ ss, P (execute s)) : P (executeAll ss) := by
  induction ss with
  | nil => exact hP.pure _
  | cons s ss ih =>
    obtain ⟨hs, hss⟩ := List.forall_mem_cons.mp h
    exact hP.bind hs fun _ => ih hss

theorem execute {s : Node} (h : PhrasedFrom ids s) : P (execute s) := by
  induction h with
  | comment | misfit => exact hP.pure _
  | goto htarget => exact hP.bind (hP.evaluate htarget) hP.jump
  | assignment hid hop hvalue => exact hP.bind (hP.evaluate hvalue) (hP.assign hop hid)
  | evaluation hvalue => exact hP.bind (hP.evaluate hvalue) fun _ => hP.pure _
  | ifThen hc _ ih =>
    refine hP.bind (hP.test hc) fun holds => ?_
    cases holds with
    | true => exact hP.executeAll ih
    | false => exact hP.pure _
  | ifElse hc _ _ ihbody ihotherwise =>
    refine hP.bind (hP.test hc) fun holds => ?_
    cases holds with
    | true => exact hP.executeAll ihbody
    | false => exact hP.executeAll ihotherwise

/-! ## Lines -/

/-- A property that also the report of a line has is had by the line. -/
theorem runLine {statements : List Node} (hreport : P (reportLine (.line statements)))
    (h : ∀ s ∈ statements, PhrasedFrom ids s) : P (runLine (.line statements)) :=
  hP.bind hreport fun _ => hP.executeAll fun s hs => hP.execute (h s hs)

end Compositional

end Yolol.Run

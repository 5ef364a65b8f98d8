-- SUMMARY: A program observes its own variables and the line counter, and changes nothing else.
import Yolol.Proofs.Hosts

/-!
# What a program observes

Two environments are alike for a program if they have the same line counter and give the
same values to the variables that occur in it, where one that is unset counts as zero. From
such environments a program runs in step: each line fails in both or in neither, with the
same message, and the environments stay alike. Of all the rest, which may differ, nothing
changes but the error.
-/

namespace Yolol.Run

open Node Parse

/-! ## Environments that are alike -/

/-- The environments have the same line counter, and give the same values to the variables. -/
structure Alike (ids : List Identifier) (a b : Environment) : Prop where
  nextLine : a.nextLine = b.nextLine
  read : ∀ id ∈ ids, a.read (.identifier id) = b.read (.identifier id)

/-- The name and what other variables hold are as they were. -/
structure Kept (ids : List Identifier) (env env' : Environment) : Prop where
  name : env'.name = env.name
  others : ∀ target : Node, (∀ id ∈ ids, target ≠ .identifier id) →
    env'.get? target = env.get? target

variable {ids : List Identifier}

theorem Kept.refl (env : Environment) : Kept ids env env := ⟨rfl, fun _ _ => rfl⟩

theorem Kept.trans {env mid env' : Environment} (h : Kept ids env mid) (h' : Kept ids mid env') :
    Kept ids env env' :=
  ⟨h'.name.trans h.name, fun target ht => (h'.others target ht).trans (h.others target ht)⟩

theorem Alike.set {a b : Environment} (h : Alike ids a b) (id : Identifier) (value : Value) :
    Alike ids (a.set (.identifier id) value) (b.set (.identifier id) value) := by
  refine ⟨h.nextLine, fun other hother => ?_⟩
  have hread := h.read other hother
  simp only [Environment.read, Environment.get?_set] at hread ⊢
  by_cases hsame : Node.identifier other = .identifier id
  · simp only [if_pos hsame]
  · simpa only [if_neg hsame] using hread

theorem Kept.set {id : Identifier} (hid : id ∈ ids) (env : Environment) (value : Value) :
    Kept ids env (env.set (.identifier id) value) := by
  refine ⟨rfl, fun target ht => ?_⟩
  rw [Environment.get?_set, if_neg (ht id hid)]

/-! ## Actions that observe variables -/

/-- An action that observes the line counter and some variables, and changes nothing else. -/
structure Observes (ids : List Identifier) {α : Type} (x : Action α) : Prop where
  together : ∀ {a b}, Alike ids a b →
    (x a).result = (x b).result ∧ Alike ids (x a).env (x b).env
  kept : ∀ env, Kept ids env (x env).env

namespace Observes

variable {α β : Type} {x : Action α} {f : α → Action β}

/-- An action that leaves the environment alone. -/
theorem still (henv : ∀ env, (x env).env = env)
    (hresult : ∀ a b, Alike ids a b → (x a).result = (x b).result) : Observes ids x := by
  refine ⟨fun {a b} hab => ⟨hresult a b hab, ?_⟩, fun env => ?_⟩
  · rwa [henv a, henv b]
  · rw [henv env]
    exact .refl env

theorem pure (a : α) : Observes ids (Action.pure a) :=
  .still (fun _ => rfl) fun _ _ _ => rfl

theorem fail (e : Fault) : Observes ids (Action.fail e : Action α) :=
  .still (fun _ => rfl) fun _ _ _ => rfl

theorem report (m : Message) : Observes ids (Action.report m) :=
  .still (fun _ => rfl) fun _ _ _ => rfl

theorem set {id : Identifier} (hid : id ∈ ids) (value : Value) :
    Observes ids (Action.modifyEnv (·.set (.identifier id) value)) where
  together hab := ⟨rfl, hab.set id value⟩
  kept env := .set hid env value

theorem moveTo (n : Int) : Observes ids (Action.modifyEnv ({ · with nextLine := n })) where
  together hab := ⟨rfl, rfl, hab.read⟩
  kept _ := ⟨rfl, fun _ _ => rfl⟩

theorem bind (hx : Observes ids x) (hf : ∀ a, Observes ids (f a)) : Observes ids (x >>= f) := by
  refine ⟨fun {a b} hab => ?_, fun env => ?_⟩
  · obtain ⟨hsame, halike⟩ := hx.together hab
    cases hfirst : (x a).result with
    | error e =>
      rw [hfirst] at hsame
      rw [result_bind_error hfirst, result_bind_error hsame.symm, env_bind_error hfirst,
        env_bind_error hsame.symm]
      exact ⟨rfl, halike⟩
    | ok v =>
      rw [hfirst] at hsame
      rw [result_bind hfirst, result_bind hsame.symm, env_bind hfirst, env_bind hsame.symm]
      exact (hf v).together halike
  · cases hfirst : (x env).result with
    | error e =>
      rw [env_bind_error hfirst]
      exact hx.kept env
    | ok v =>
      rw [env_bind hfirst]
      exact (hx.kept env).trans ((hf v).kept _)

end Observes

theorem observes_readVariable {id : Identifier} (hid : id ∈ ids) :
    Observes ids (readVariable (.identifier id)) := by
  refine .still (fun _ => rfl) fun a b hab => ?_
  exact congrArg Except.ok (hab.read id hid)

theorem compositional_observes : Compositional ids (@Observes ids) where
  pure := .pure
  fail r := .fail (.runtime r)
  report := .report
  read _ hid := observes_readVariable hid
  set _ hid value := .set hid value
  move := .moveTo
  bind := .bind

theorem observes_reportLine (line : Node) : Observes ids (reportLine line) := by
  unfold reportLine
  cases line.unwritable? with
  | none => exact .still (fun _ => rfl) fun _ _ _ => rfl
  | some name => exact .fail _

theorem observes_runLine {statements : List Node} (h : ∀ s ∈ statements, PhrasedFrom ids s) :
    Observes ids (runLine (.line statements)) :=
  compositional_observes.runLine (observes_reportLine _) h

/-! ## One step -/

/-- The message of the runtime fault that an action ended with, if any. -/
def faultMessage? : Except Fault Unit → Option String
  | .error (.runtime f) => some f.message
  | _ => none

/-- The message of the fault that the next of some lines ends with, if any. -/
def nextError (lines : List Node) (env : Environment) : Option String :=
  lines[currentLine lines.length env.nextLine - 1]?.bind fun line =>
    faultMessage? (runLine line (advanced lines.length env)).result

/-- A fault is recorded, and nothing else is. -/
theorem recordFault_of_guarded {x : Action Unit} (hx : Guarded x) (env : Environment) :
    (recordFault x env).result = .ok () ∧
      (recordFault x env).env =
        { (x env).env with error := (faultMessage? (x env).result).getD env.error } := by
  cases hresult : (x env).result with
  | ok _ =>
    simp only [recordFault, hresult, faultMessage?, Option.getD_none, true_and]
    rw [← hx.error env]
  | error fault =>
    obtain ⟨f, rfl⟩ := hx.runtime env fault hresult
    simp [recordFault, hresult, faultMessage?]

theorem Alike.advanced {a b : Environment} (h : Alike ids a b) (count : Nat) :
    Alike ids (Run.advanced count a) (Run.advanced count b) :=
  ⟨congrArg (fun n => (currentLine count n + 1 : Int)) h.nextLine, h.read⟩

theorem runLines_succ (lines : List Node) (steps : Nat) :
    runLines lines (steps + 1) = runLines lines steps >>= fun _ => runNext lines := by
  induction steps with
  | zero => exact Action.bind_pure_self (runNext lines)
  | succ steps ih =>
    calc runLines lines (steps + 1 + 1)
      _ = runNext lines >>= fun _ => runLines lines (steps + 1) := rfl
      _ = runNext lines >>= fun _ => runLines lines steps >>= fun _ => runNext lines := by rw [ih]
      _ = (runNext lines >>= fun _ => runLines lines steps) >>= fun _ => runNext lines :=
        (bind_assoc _ _ _).symm

/-- From environments that are alike, the next line fails in both or in neither. -/
theorem nextError_of_alike {lines : List Node} (hlines : LinesFrom ids lines) {a b : Environment}
    (hab : Alike ids a b) : nextError lines a = nextError lines b := by
  unfold nextError
  rw [hab.nextLine]
  cases hline : lines[currentLine lines.length b.nextLine - 1]? with
  | none => rfl
  | some line =>
    obtain ⟨statements, rfl, hstatements⟩ := hlines line (List.mem_of_getElem? hline)
    exact congrArg faultMessage? ((observes_runLine hstatements).together (hab.advanced _)).1

section
variable {lines : List Node} (hlines : LinesFrom ids lines) (hne : lines ≠ [])

include hlines hne

/-- There is a next line, and running it is what a step does. -/
theorem exists_next (env : Environment) :
    ∃ statements, (∀ s ∈ statements, PhrasedFrom ids s) ∧
      lines[currentLine lines.length env.nextLine - 1]? = some (.line statements) ∧
      (runNext lines env).result = .ok () ∧
      (runNext lines env).env =
        { (runLine (.line statements) (advanced lines.length env)).env with
          error := (nextError lines env).getD env.error } := by
  have hbound := currentLine_bounds (List.length_pos_iff.mpr hne) env.nextLine
  have hline := List.getElem?_eq_getElem hbound
  obtain ⟨statements, hstatements, hphrased⟩ := hlines _ (List.getElem_mem hbound)
  rw [hstatements] at hline
  refine ⟨statements, hphrased, hline, ?_⟩
  rw [runNext_apply hline, nextError, hline]
  exact recordFault_of_guarded (guarded_runLine hphrased) _

/-- What a step does to one environment. -/
theorem runNext_spec (env : Environment) :
    (runNext lines env).result = .ok () ∧ Kept ids env (runNext lines env).env ∧
      (runNext lines env).env.error = (nextError lines env).getD env.error := by
  obtain ⟨statements, hphrased, -, hresult, henv⟩ := exists_next hlines hne env
  have hkept := (observes_runLine hphrased).kept (advanced lines.length env)
  rw [henv]
  exact ⟨hresult, ⟨hkept.name, hkept.others⟩, rfl⟩

/-- What a step does to two environments. -/
theorem runNext_alike {a b : Environment} (hab : Alike ids a b) :
    Alike ids (runNext lines a).env (runNext lines b).env := by
  obtain ⟨statements, hphrased, hline, -, henv⟩ := exists_next hlines hne a
  obtain ⟨_, -, hline', -, henv'⟩ := exists_next hlines hne b
  rw [← hab.nextLine, hline] at hline'
  cases hline'
  have halike := ((observes_runLine hphrased).together (hab.advanced lines.length)).2
  rw [henv, henv']
  exact ⟨halike.nextLine, halike.read⟩

/-! ## Many steps -/

theorem runLines_spec (steps : Nat) (env : Environment) :
    (runLines lines steps env).result = .ok () ∧ Kept ids env (runLines lines steps env).env := by
  induction steps with
  | zero => exact ⟨rfl, .refl env⟩
  | succ steps ih =>
    obtain ⟨hresult, hkept⟩ := ih
    obtain ⟨hnext, hkept', -⟩ := runNext_spec hlines hne (runLines lines steps env).env
    rw [runLines_succ, result_bind hresult, env_bind hresult]
    exact ⟨hnext, hkept.trans hkept'⟩

theorem env_runLines_succ (steps : Nat) (env : Environment) :
    (runLines lines (steps + 1) env).env = (runNext lines (runLines lines steps env).env).env := by
  rw [runLines_succ, env_bind (runLines_spec hlines hne steps env).1]

theorem runLines_alike (steps : Nat) {a b : Environment} (hab : Alike ids a b) :
    Alike ids (runLines lines steps a).env (runLines lines steps b).env := by
  induction steps with
  | zero => exact hab
  | succ steps ih =>
    rw [env_runLines_succ hlines hne, env_runLines_succ hlines hne]
    exact runNext_alike hlines hne ih

end

/-- A program that was parsed runs in step from environments that are alike. Neither run
    ends with a fault, both leave the name and other variables alone, and every step fails in
    both or in neither, with the same message, which becomes the error. -/
theorem runProgram_observes {ts : List Token} {lines : List Node} {a b : Environment}
    (hparsed : (program ts).result = .ok (.program lines))
    (hab : Alike (Node.program lines).identifiers a b) :
    let run (steps : Int) (env : Environment) := runProgram (.program lines) steps env
    let ids := (Node.program lines).identifiers
    (∀ steps : Int,
      ((run steps a).result = .ok () ∧ (run steps b).result = .ok ()) ∧
        Alike ids (run steps a).env (run steps b).env ∧
        Kept ids a (run steps a).env ∧ Kept ids b (run steps b).env) ∧
      ∀ done : Nat,
        nextError lines (run done a).env = nextError lines (run done b).env ∧
          ∀ env, (run (done + 1 : Nat) env).env.error =
            (nextError lines (run done env).env).getD (run done env).env.error := by
  intro run ids
  have hlines : LinesFrom ids lines := linesFrom_of_program hparsed
  by_cases hne : lines = []
  · subst hne
    exact ⟨fun _ => ⟨⟨rfl, rfl⟩, hab, .refl a, .refl b⟩, fun _ => ⟨rfl, fun _ => rfl⟩⟩
  · have hrun (steps : Int) (env : Environment) :
        run steps env = runLines lines steps.toNat env := by
      cases lines with
      | nil => exact absurd rfl hne
      | cons line lines => rfl
    simp only [hrun, Int.toNat_natCast]
    refine ⟨fun steps => ?_, fun done => ⟨?_, fun env => ?_⟩⟩
    · obtain ⟨hresult, hkept⟩ := runLines_spec hlines hne steps.toNat a
      obtain ⟨hresult', hkept'⟩ := runLines_spec hlines hne steps.toNat b
      exact ⟨⟨hresult, hresult'⟩, runLines_alike hlines hne _ hab, hkept, hkept'⟩
    · exact nextError_of_alike hlines (runLines_alike hlines hne done hab)
    · rw [env_runLines_succ hlines hne]
      exact (runNext_spec hlines hne _).2.2

/-- A shared variable is stepped, and then a text is taken from it, which fails. -/
def sharedLines : List Node :=
  let x : Node := .value (.identifier ⟨"x", true⟩)
  [.line [.evaluation (.unary .postIncrement x)],
    .line [.assignment (.identifier ⟨"y", false⟩) .addAssign (.binary .sub x (.value (.text "!")))]]

def sharedTokens : List Token := (Token.scan ":x++\ny += :x - \"!\"").toOption.getD []

/-- Set the variables to zero, and one that only shares its name with another. -/
def crowd (env : Environment) : Environment :=
  ((env.set (.identifier ⟨"x", true⟩) .zero).set (.identifier ⟨"y", false⟩) .zero).set
    (.identifier ⟨"x", false⟩) (.text "local")

/-- An empty environment and a crowded one: the second step fails in both, and the local
    variable is left alone. -/
theorem runProgram_observes_sharedLines :
    let run (steps : Int) (env : Environment) := runProgram (.program sharedLines) steps env
    let crowded := crowd { name := "crowded", error := "an old one" }
    nextError sharedLines (run 1 {}).env =
        some "TypeError: unsupported - for Number and String" ∧
      nextError sharedLines (run 1 crowded).env =
        some "TypeError: unsupported - for Number and String" ∧
      Alike (Node.program sharedLines).identifiers (run 2 {}).env (run 2 crowded).env ∧
      (run 2 crowded).env.get? (.identifier ⟨"x", false⟩) = some (.text "local") := by
  intro run crowded
  have hparsed : (program sharedTokens).result = .ok (.program sharedLines) := by decide +kernel
  have hab : Alike (Node.program sharedLines).identifiers {} crowded := ⟨rfl, by decide +kernel⟩
  obtain ⟨hruns, hsteps⟩ := runProgram_observes hparsed hab
  have hfails : nextError sharedLines (run 1 {}).env =
      some "TypeError: unsupported - for Number and String" := by decide +kernel
  obtain ⟨-, halike, -, hkept⟩ := hruns 2
  have hother : ∀ id ∈ (Node.program sharedLines).identifiers,
      Node.identifier ⟨"x", false⟩ ≠ .identifier id := by decide +kernel
  have hlocal : crowded.get? (.identifier ⟨"x", false⟩) = some (.text "local") := by
    decide +kernel
  exact ⟨hfails, (hsteps 1).1.symm.trans hfails, halike, (hkept.others _ hother).trans hlocal⟩

end Yolol.Run

-- SUMMARY: Running a program and feeding its text line by line come to the same.
import Yolol.Proofs.ParsedTree
import Yolol.Proofs.ProgramLines
import Yolol.Proofs.RuntimeSafety

/-!
# Two hosts

A host that has the tree of a program runs the next of its lines. A host that has only
the text feeds the line whose turn it is. Both move the counter on before the line runs,
so a jump wins, both go back to the first line when the counter leaves the program, and
both record a runtime fault, so after each step they are in the same environment.
-/

namespace Yolol.Run

open Token Parse

/-! ## Feeding text -/

/-- Feed the text whose turn it is. The host knows how many lines there are, since the last
    text may be no line. -/
def feedNext (texts : List String) (count : Nat) : Action Bool := do
  let env ← Action.getEnv
  let number := currentLine count env.nextLine
  Action.modifyEnv ({ · with nextLine := number + 1 })
  match texts[number - 1]? with
  | some text => executeSource text
  | none => return false

/-- Feed `steps` texts, one after the other. -/
def feedLines (texts : List String) (count : Nat) : (steps : Nat) → Action Unit
  | 0 => Action.pure ()
  | steps + 1 => do
    let _ ← feedNext texts count
    feedLines texts count steps

/-! ## One line -/

theorem guarded_of_lineOfSource {text : String} {line : Node} (h : lineOfSource text = .ok line) :
    Guarded (runLine line) := by
  obtain ⟨statements, rfl, hgrammatical, -⟩ := grammatical_of_lineOfSource h
  exact guarded_runLine (Node.phrasedFrom_of_line hgrammatical.stratified (List.Subset.refl _))

theorem executeSource_of_ran {text : String} {line : Node} (h : lineOfSource text = .ok line)
    {env : Environment} (hran : (runLine line env).result = .ok ()) :
    (executeSource text env).result = .ok true ∧
      (executeSource text env).env = (runLine line env).env := by
  simp [executeSource, h, hran]

theorem executeSource_of_fault {text : String} {line : Node} {f : RuntimeFault}
    (h : lineOfSource text = .ok line) {env : Environment}
    (hran : (runLine line env).result = .error (.runtime f)) :
    (executeSource text env).result = .ok false ∧
      (executeSource text env).env = { (runLine line env).env with error := f.message } := by
  simp [executeSource, h, hran]

/-- Running a line and feeding its text do the same, and neither ends the run. -/
theorem recordFault_eq_executeSource {text : String} {line : Node}
    (h : lineOfSource text = .ok line) (env : Environment) :
    (recordFault (runLine line) env).result = .ok () ∧
      (∃ ran, (executeSource text env).result = .ok ran) ∧
        (recordFault (runLine line) env).env = (executeSource text env).env := by
  cases hran : (runLine line env).result with
  | ok _ =>
    obtain ⟨hresult, henv⟩ := executeSource_of_ran h hran
    exact ⟨by simp [recordFault, hran], ⟨true, hresult⟩, by simp [recordFault, hran, henv]⟩
  | error fault =>
    obtain ⟨f, rfl⟩ := (guarded_of_lineOfSource h).runtime env fault hran
    obtain ⟨hresult, henv⟩ := executeSource_of_fault h hran
    exact ⟨by simp [recordFault, hran], ⟨false, hresult⟩, by simp [recordFault, hran, henv]⟩

/-! ## One step -/

theorem currentLine_bounds {count : Nat} (hcount : 0 < count) (nextLine : Int) :
    currentLine count nextLine - 1 < count := by
  unfold currentLine
  split <;> omega

/-- The environment in which the next line runs: the counter has moved on. -/
def advanced (count : Nat) (env : Environment) : Environment :=
  { env with nextLine := currentLine count env.nextLine + 1 }

theorem runNext_apply {lines : List Node} {env : Environment} {line : Node}
    (h : lines[currentLine lines.length env.nextLine - 1]? = some line) :
    runNext lines env = recordFault (runLine line) (advanced lines.length env) := by
  simp only [runNext, bind, Action.bind, Action.getEnv, Action.modifyEnv, h, List.nil_append]
  rfl

theorem feedNext_apply {texts : List String} {count : Nat} {env : Environment} {text : String}
    (h : texts[currentLine count env.nextLine - 1]? = some text) :
    feedNext texts count env = executeSource text (advanced count env) := by
  simp only [feedNext, bind, Action.bind, Action.getEnv, Action.modifyEnv, h, List.nil_append]
  rfl

/-- The texts spell the lines, from the first on. -/
def SpellLines (texts : List String) (lines : List Node) : Prop :=
  ∀ (i : Nat) (line : Node), lines[i]? = some line →
    ∃ text, texts[i]? = some text ∧ lineOfSource text = .ok line

theorem SpellLines.length_le {texts : List String} {lines : List Node}
    (h : SpellLines texts lines) : lines.length ≤ texts.length := by
  by_contra hlonger
  have hlast : texts.length < lines.length := by omega
  obtain ⟨text, htext, -⟩ := h _ _ (List.getElem?_eq_getElem hlast)
  simp at htext

/-- One step of either host comes to the same. -/
theorem runNext_eq_feedNext {lines : List Node} {texts : List String} (hne : lines ≠ [])
    (hlines : SpellLines texts lines) (env : Environment) :
    (runNext lines env).result = .ok () ∧
      (∃ ran, (feedNext texts lines.length env).result = .ok ran) ∧
        (runNext lines env).env = (feedNext texts lines.length env).env := by
  have hbound := currentLine_bounds (List.length_pos_iff.mpr hne) env.nextLine
  have hline := List.getElem?_eq_getElem hbound
  obtain ⟨text, htext, hread⟩ := hlines _ _ hline
  rw [runNext_apply hline, feedNext_apply htext]
  exact recordFault_eq_executeSource hread (advanced lines.length env)

/-! ## Many steps -/

theorem runLines_eq_feedLines {lines : List Node} {texts : List String} (hne : lines ≠ [])
    (hlines : SpellLines texts lines) (steps : Nat) (env : Environment) :
    (runLines lines steps env).result = .ok () ∧
      (feedLines texts lines.length steps env).result = .ok () ∧
        (runLines lines steps env).env = (feedLines texts lines.length steps env).env := by
  induction steps generalizing env with
  | zero => exact ⟨rfl, rfl, rfl⟩
  | succ steps ih =>
    obtain ⟨hrun, ⟨ran, hfed⟩, henv⟩ := runNext_eq_feedNext hne hlines env
    rw [runLines, feedLines, result_bind hrun, result_bind hfed, env_bind hrun, env_bind hfed,
      ← henv]
    exact ih _

/-- There is a piece of the text for every line of its program. After one step, and so after
    any number of steps, the host that runs the program and the host that feeds the pieces
    are in the same environment, and neither run has ended. -/
theorem runProgram_eq_feedLines {source : String} {lines : List Node}
    (h : programOfSource source = .ok (.program lines)) (hne : lines ≠ []) (env : Environment) :
    lines.length ≤ (pieces source).length ∧
      ((runProgram (.program lines) 1 env).result = .ok () ∧
        (∃ ran, (feedNext (pieces source) lines.length env).result = .ok ran) ∧
          (runProgram (.program lines) 1 env).env =
            (feedNext (pieces source) lines.length env).env) ∧
      ∀ steps : Nat,
        (runProgram (.program lines) steps env).result = .ok () ∧
          (feedLines (pieces source) lines.length steps env).result = .ok () ∧
            (runProgram (.program lines) steps env).env =
              (feedLines (pieces source) lines.length steps env).env := by
  obtain ⟨_, heq, hlines⟩ := lines_of_programOfSource h
  cases heq
  have hlines : SpellLines (pieces source) lines := hlines
  have hrun (steps : Nat) : runProgram (.program lines) steps = runLines lines steps := by
    cases lines with
    | nil => exact absurd rfl hne
    | cons line lines => rfl
  have hone : runProgram (.program lines) 1 = runLines lines 1 := hrun 1
  refine ⟨hlines.length_le, ?_, fun steps => ?_⟩
  · obtain ⟨hran, hfed, henv⟩ := runNext_eq_feedNext hne hlines env
    rw [hone, runLines, result_bind hran, env_bind hran, runLines]
    exact ⟨rfl, hfed, henv⟩
  · rw [hrun steps]
    exact runLines_eq_feedLines hne hlines steps env

/-- Three lines: a jump to a line that there is not, nothing, and a fault. -/
def jumpingSource : String := ":a = 1 goto -:a\n\nb++ c = b / 0 b++\n"

def jumpingLines : List Node :=
  let a : Identifier := ⟨"a", true⟩
  let b : Node := .value (.identifier ⟨"b", false⟩)
  [.line
      [.assignment (.identifier a) .assign (.value (.number .one)),
        .goto (.unary .negate (.value (.identifier a)))],
    .line [],
    .line
      [.evaluation (.unary .postIncrement b),
        .assignment (.identifier ⟨"c", false⟩) .assign
          (.binary .div b (.value (.number .zero))),
        .evaluation (.unary .postIncrement b)]]

theorem programOfSource_jumpingSource :
    programOfSource jumpingSource = .ok (.program jumpingLines) := by
  decide +kernel

/-- From the third line on: its fault is recorded, the counter leaves the program, the first
    line runs and jumps to none, and runs again. -/
theorem runProgram_eq_feedLines_jumpingSource :
    (feedNext (pieces jumpingSource) 3 { nextLine := 3 }).env.error =
        "ZeroDivisionError: division by zero" ∧
      (runProgram (.program jumpingLines) 1 { nextLine := 3 }).env =
        (feedNext (pieces jumpingSource) 3 { nextLine := 3 }).env ∧
      (feedLines (pieces jumpingSource) 3 3 { nextLine := 3 }).env.nextLine = -1 ∧
      (runProgram (.program jumpingLines) (3 : Nat) { nextLine := 3 }).env =
        (feedLines (pieces jumpingSource) 3 3 { nextLine := 3 }).env := by
  obtain ⟨-, ⟨-, -, hone⟩, hmany⟩ :=
    runProgram_eq_feedLines programOfSource_jumpingSource (by simp [jumpingLines]) { nextLine := 3 }
  exact ⟨by decide +kernel, hone, by decide +kernel, (hmany 3).2.2⟩

end Yolol.Run

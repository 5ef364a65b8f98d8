-- SUMMARY: Every value that lines and programs store can be written as source text and read back.
import Yolol.Proofs.Invariant
import Yolol.Proofs.ProgramRoundTrip

/-!
# Stored values

Texts come from literals, which hold no quote and no newline, and from joining such texts.
So whatever lines and programs store can stand in source text. An assignment of that text
stores the value again. A negative number is read as the negation of a literal, and the
literal of the least number saturates, so this number alone comes back greater by one unit.
-/

namespace Yolol

open Token

/-! ## Opposite numbers -/

namespace Number

theorem raw_neg {n : Number} (h : n ≠ least) : n.neg.raw = -n.raw := by
  have hmin := n.rawMin_le
  have hmax := n.le_rawMax
  have hne : n.raw ≠ rawMin := by
    rintro hraw
    exact h (by rw [← ofRaw_raw n, hraw]; rfl)
  refine clamp_eq_self ?_ ?_ <;> unfold rawMin rawMax at * <;> omega

theorem neg_neg {n : Number} (h : n ≠ least) : n.neg.neg = n := by
  rw [neg, raw_neg h, Int.neg_neg, ofRaw_raw]

/-- The literal of a negative number is that of its opposite with a sign. -/
theorem toLiteral_neg {n : Number} (hne : n ≠ least) (h : n.raw < 0) :
    n.toLiteral = "-" ++ n.neg.toLiteral := by
  have hopposite : ¬ 0 < n.raw := by omega
  simp [toLiteral, toChars, raw_neg hne, h, hopposite]

end Number

/-! ## Values in source text -/

namespace Value

/-- A value that source text can hold: any number, and a text that fits between quotes. -/
def isWritable : Value → Bool
  | .number _ => true
  | .text s => isQuotable s.toList
  | .other _ => false

/-- The expression that the source text of a value spells. -/
def expression : Value → Node
  | .number n => if n.raw < 0 then .unary .negate (.value (.number n.neg)) else .value (.number n)
  | .text s => .value (.text s)
  | .other content => .value (.misfit .text content)

/-- What is read back: the value itself, but for the least number, whose opposite saturates. -/
def readBack (v : Value) : Value :=
  if v = .number .least then .number (.ofRaw (Number.rawMin + 1)) else v

theorem expression_negative {n : Number} (h : n.raw < 0) :
    (number n).expression = .unary .negate (.value (.number n.neg)) := if_pos h

theorem expression_number {n : Number} (h : 0 ≤ n.raw) :
    (number n).expression = .value (.number n) := if_neg (by omega)

/-- What is read back of a number is the opposite of its opposite. -/
theorem readBack_eq_neg_neg (n : Number) :
    (number n).readBack = .number n.neg.neg := by
  by_cases hn : n = .least
  · subst hn
    decide
  · rw [Number.neg_neg hn, readBack, if_neg (by simpa using hn)]

theorem readBack_number {n : Number} (h : 0 ≤ n.raw) : (number n).readBack = .number n := by
  have hn : n ≠ .least := by
    rintro rfl
    exact absurd h (by decide)
  rw [readBack, if_neg (by simpa using hn)]

theorem source_expression {v : Value} (hv : v.isWritable = true) (hne : v ≠ .number .least) :
    v.expression.source = v.source := by
  cases v with
  | number n =>
    have hn : n ≠ .least := fun h => hne (congrArg _ h)
    rcases Int.lt_or_le n.raw 0 with hneg | hnonneg
    · rw [expression_negative hneg, source, Number.toLiteral_neg hn hneg]
      rfl
    · rw [expression_number hnonneg]
      rfl
  | text s => rfl
  | other content => cases hv

theorem scannable_expression {v : Value} (hv : v.isWritable = true) (hne : v ≠ .number .least) :
    v.expression.every Node.isScannable = true := by
  cases v with
  | number n =>
    have hn : n ≠ .least := fun h => hne (congrArg _ h)
    rcases Int.lt_or_le n.raw 0 with hneg | hnonneg
    · have hopposite : 0 ≤ n.neg.raw := by
        rw [Number.raw_neg hn]
        omega
      simp [expression_negative hneg, Node.every, Node.isScannable, hopposite]
    · simp [expression_number hnonneg, Node.every, Node.isScannable, hnonneg]
  | text s =>
    have hs : isQuotable s.toList = true := hv
    simp [expression, Node.every, Node.isScannable, hs]
  | other content => cases hv

end Value

/-! ## Reading a value back -/

namespace Run

open Parse

/-- The line that assigns a value to the variable `x`. -/
def assignmentOf (v : Value) : Node :=
  .line [.assignment (.identifier ⟨"x", false⟩) .assign v.expression]

theorem wellWritten_assignmentOf {v : Value} (hv : v.isWritable = true)
    (hne : v ≠ .number .least) : WellWritten (assignmentOf v) := by
  have hscannable : (assignmentOf v).every Node.isScannable = true := by
    simp only [assignmentOf, Node.every, Node.everyAll, Bool.and_eq_true]
    exact ⟨rfl, ⟨rfl, by decide, v.scannable_expression hv hne⟩, trivial⟩
  have hshape : (assignmentOf v).Stratified ∧ (assignmentOf v).every Node.isClashFree = true := by
    cases v with
    | number n =>
      unfold assignmentOf Value.expression
      simp only
      split <;> exact ⟨rfl, rfl⟩
    | text s => exact ⟨rfl, rfl⟩
    | other content => cases hv
  have hlegible := Node.every_mono Node.isLegible_of_isScannable _ hscannable
  exact ⟨_, rfl, ⟨hshape.1, hlegible, hshape.2⟩, hscannable⟩

theorem lineOfSource_assignmentOf {v : Value} (hv : v.isWritable = true) :
    lineOfSource ("x = " ++ v.source) = .ok (assignmentOf v) := by
  by_cases hne : v = .number .least
  · subst hne
    decide +kernel
  · have hwritten := wellWritten_assignmentOf hv hne
    have hsource : (assignmentOf v).source = "x = " ++ v.source := by
      rw [← v.source_expression hv hne]
      rfl
    rw [← hsource]
    exact hwritten.lineOfSource

theorem evaluate_expression {v : Value} (hv : v.isWritable = true) (host : Environment) :
    evaluate v.expression host = ⟨.ok v.readBack, host, []⟩ := by
  cases v with
  | number n =>
    rcases Int.lt_or_le n.raw 0 with hneg | hnonneg
    · rw [Value.expression_negative hneg, Value.readBack_eq_neg_neg]
      rfl
    · rw [Value.expression_number hnonneg, Value.readBack_number hnonneg]
      rfl
  | text s => rfl
  | other content => cases hv

theorem runLine_assignmentOf {v : Value} (hv : v.isWritable = true) (host : Environment) :
    (runLine (assignmentOf v) host).result = .ok () ∧
      (runLine (assignmentOf v) host).env = host.set (.identifier ⟨"x", false⟩) v.readBack := by
  have hvalue := evaluate_expression hv host
  have hwritable : (assignmentOf v).unwritable? = none := by
    cases v with
    | number n =>
      unfold assignmentOf Value.expression
      simp only
      split <;> rfl
    | text s => rfl
    | other content => cases hv
  have hreport : (reportLine (assignmentOf v) host).result = .ok () := by
    rw [reportLine, hwritable]
    rfl
  have hparts : runLine (assignmentOf v) = reportLine (assignmentOf v) >>= fun _ =>
      executeAll [.assignment (.identifier ⟨"x", false⟩) .assign v.expression] := rfl
  rw [hparts, result_bind hreport, env_bind hreport, env_reportLine]
  simp [executeAll, execute, bind, Action.bind, hvalue, assign, Node.collection?, assigned,
    Action.pure, Action.modifyEnv, Action.report]

/-! ## Reachable environments -/

/-- Environments that come about by feeding lines of text and running programs that source text
    spells, where at first there are no variables. -/
inductive Reachable : Environment → Prop where
  | start {env} (empty : env.store.entries = []) : Reachable env
  | feed {env} (before : Reachable env) (source : String) :
      Reachable (executeSource source env).env
  | run {env source program} (before : Reachable env)
      (spelled : programOfSource source = .ok program) (steps : Int) :
      Reachable (runProgram program steps env).env

/-- A node that is no text, or one that fits between quotes. -/
def isQuotableLeaf : Node → Bool
  | .text s => isQuotable s.toList
  | .misfit .text _ => false
  | _ => true

theorem isQuotableLeaf_of_isScannable (n : Node) (h : n.isScannable = true) :
    isQuotableLeaf n = true := by
  cases n with
  | text s => exact h
  | misfit => cases h
  | _ => rfl

theorem quotable_of_lineOfSource {source : String} {line : Node}
    (h : lineOfSource source = .ok line) : line.every isQuotableLeaf = true := by
  obtain ⟨-, -, -, hscannable⟩ := grammatical_of_lineOfSource h
  exact Node.every_mono isQuotableLeaf_of_isScannable _ hscannable

theorem quotable_of_programOfSource {source : String} {program : Node}
    (h : programOfSource source = .ok program) : program.every isQuotableLeaf = true := by
  obtain ⟨lines, rfl, hlines⟩ := lines_of_programOfSource h
  simp only [Node.every, Bool.and_eq_true, Node.everyAll_iff]
  refine ⟨rfl, fun line hline => ?_⟩
  obtain ⟨i, hi⟩ := List.mem_iff_getElem?.mp hline
  obtain ⟨piece, -, hpiece⟩ := hlines i line hi
  exact quotable_of_lineOfSource hpiece

/-- Every value that the environment holds can be written. -/
def HoldsWritable (env : Environment) : Prop := ∀ e ∈ env.store.entries, e.2.isWritable = true

theorem HoldsWritable.set {env : Environment} (h : HoldsWritable env) {value : Value}
    (hvalue : value.isWritable = true) (target : Node) : HoldsWritable (env.set target value) := by
  intro e he
  rcases Store.mem_set he with he | rfl
  · exact h e he
  · exact hvalue

theorem HoldsWritable.read {env : Environment} (h : HoldsWritable env) (target : Node) :
    (env.read target).isWritable = true := by
  unfold Environment.read
  split
  · rfl
  · rfl
  · next value _ hget =>
    obtain ⟨key, hmem⟩ := Store.mem_of_get? hget
    exact h _ hmem

theorem invariant_holdsWritable :
    Invariant isQuotableLeaf HoldsWritable fun v => v.isWritable = true where
  number _ := rfl
  text h := h
  misfit := nofun
  join {s t} hs ht := by
    simp only [Value.isWritable, isQuotable, String.toList_append, List.all_append,
      Bool.and_eq_true] at hs ht ⊢
    exact ⟨hs, ht⟩
  read h target := h.read target
  step _ _ _ _ _ h _ := h.set rfl _
  assign _ _ _ _ h hvalue := h.set hvalue _
  jump _ _ h _ := h

theorem Reachable.holdsWritable {env : Environment} (h : Reachable env) : HoldsWritable env := by
  induction h with
  | start hempty => simp [HoldsWritable, hempty]
  | feed _ source ih =>
    have hlines : ∀ line, lineOfSource source = .ok line → line.every isQuotableLeaf = true :=
      fun _ => quotable_of_lineOfSource
    have hkept := invariant_holdsWritable.executeSource (fun _ _ h => h) (fun _ _ h => h) hlines
    exact (hkept _ ih).1
  | run _ hspelled steps ih =>
    have hkept := invariant_holdsWritable.runProgram (fun _ _ h => h) (fun _ _ h => h)
      (quotable_of_programOfSource hspelled) steps
    exact (hkept _ ih).1

/-- A line that joins two texts and saturates, and then a program that steps below the least
    number. -/
def extremeEnvironment : Environment :=
  (runProgram (.program [.line [.evaluation
      (.unary .postDecrement (.value (.identifier ⟨"b", false⟩)))]]) 1
    (executeSource "a = \"q\" + \"'//\" b = -999999999999999999"
      { store := ⟨[], List.nodup_nil⟩ }).env).env

theorem reachable_extremeEnvironment : Reachable extremeEnvironment := by
  have hspelled : programOfSource "b--" = .ok (.program [.line [.evaluation
      (.unary .postDecrement (.value (.identifier ⟨"b", false⟩)))]]) := by
    decide +kernel
  have hstart : Reachable {} := .start rfl
  exact (hstart.feed _).run hspelled 1

end Run

end Yolol

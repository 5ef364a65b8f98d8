-- SUMMARY: A log changes nothing but what is written, and a louder one only writes more.
import Yolol.Parse.Logged
import Yolol.Run.Session

/-!
# Tracing

The parser and the interpreter ask their log at every message. Whatever it answers, they go
on in the same way: under a log they find and do what they find and do without one, and what
is let through is what the log admits of all the messages. All these have a level of one or
more, so a log of level zero is silent.
-/

namespace Yolol

namespace Log

variable {log : Log}

-- ---------------------------------------------------------------------------
-- Messages
-- ---------------------------------------------------------------------------

/-- `log.Passes ms written`: the log lets through `written` of the messages `ms`, and a log of
    level zero would let through none. -/
structure Passes (log : Log) (ms written : List Message) : Prop where
  eq_filter : written = ms.filter log.admits
  audible : ∀ m ∈ ms, 0 < m.level

namespace Passes

variable {ms ns written written' : List Message}

theorem nil : log.Passes [] [] := ⟨rfl, by simp⟩

theorem append (h : log.Passes ms written) (h' : log.Passes ns written') :
    log.Passes (ms ++ ns) (written ++ written') := by
  refine ⟨?_, List.forall_mem_append.mpr ⟨h.audible, h'.audible⟩⟩
  rw [h.eq_filter, h'.eq_filter, List.filter_append]

theorem emit {m : Message} (hm : 0 < m.level) : log.Passes [m] (log.emit m) := by
  refine ⟨?_, by simpa using hm⟩
  by_cases hadmits : log.admits m <;> simp [Log.emit, hadmits]

theorem flatMap_emit (h : ∀ m ∈ ms, 0 < m.level) : log.Passes ms (ms.flatMap log.emit) := by
  induction ms with
  | nil => exact .nil
  | cons m ms ih =>
    obtain ⟨hm, hms⟩ := List.forall_mem_cons.mp h
    exact (emit hm).append (ih hms)

/-- Of the same messages, a log lets through what is not above its level of what a louder log
    lets through. -/
theorem quieter {louder : Log} (h : log.Passes ms written) (h' : louder.Passes ms written')
    (hlevel : log.level ≤ louder.level) : written = written'.filter (·.level ≤ log.level) := by
  rw [h.eq_filter, h'.eq_filter, List.filter_filter]
  refine List.filter_congr fun m _ => ?_
  by_cases hm : m.level ≤ log.level
  · simp [admits, hm, Int.le_trans hm hlevel]
  · simp [admits, hm]

theorem map_level (h : log.Passes ms written) :
    written.map (·.level) = (ms.map (·.level)).filter (· ≤ log.level) := by
  rw [h.eq_filter, List.filter_map]
  rfl

theorem silent (h : log.Passes ms written) (hlevel : log.level ≤ 0) : written = [] := by
  rw [h.eq_filter, List.filter_eq_nil_iff]
  intro m hm hadmits
  have hlow : m.level ≤ log.level := by simpa [admits] using hadmits
  have hpositive := h.audible m hm
  omega

/-- What the log lets through is what it would write of all the messages. -/
theorem writeAll_eq (h : log.Passes ms written) (out : Output) :
    log.writeAll out ms = log.writeAll out written := by
  rw [h.eq_filter]
  clear h
  induction ms generalizing out with
  | nil => rfl
  | cons m ms ih =>
    by_cases hadmits : log.admits m = true
    · rw [List.filter_cons_of_pos hadmits]
      exact ih (log.write out m)
    · have hwrite : log.write out m = out := if_neg hadmits
      calc log.writeAll out (m :: ms)
        _ = log.writeAll (log.write out m) ms := rfl
        _ = log.writeAll out (ms.filter log.admits) := by rw [hwrite, ih out]
        _ = log.writeAll out ((m :: ms).filter log.admits) := by
          rw [List.filter_cons_of_neg hadmits]

end Passes

/-- Messages as a stream receives them, each on a line of its own. -/
def transcript (ms : List Message) : String := String.join (ms.map (·.text ++ "\n"))

theorem writeAll_stream {ms : List Message} (hsink : log.sink = .stream)
    (hadmits : ∀ m ∈ ms, log.admits m = true) (out : Output) :
    log.writeAll out ms = { out with stream := out.stream ++ transcript ms } := by
  induction ms generalizing out with
  | nil => simp [writeAll, transcript]
  | cons m ms ih =>
    obtain ⟨hm, hms⟩ := List.forall_mem_cons.mp hadmits
    have hfirst : log.write out m = { out with stream := out.stream ++ (m.text ++ "\n") } := by
      simp [write, hm, hsink, Output.put]
    calc log.writeAll out (m :: ms)
      _ = log.writeAll (log.write out m) ms := rfl
      _ = { out with stream := out.stream ++ (m.text ++ "\n") ++ transcript ms } := by
        rw [ih hms, hfirst]
      _ = { out with stream := out.stream ++ transcript (m :: ms) } := by
        simp [transcript, String.append_assoc]

/-- What a log writes of all the messages to its stream is what it lets through. -/
theorem Passes.writeAll_start {level : Int} {ms written : List Message}
    (h : (Log.start level .stream).Passes ms written) (out : Output) :
    (Log.start level .stream).writeAll out ms =
      { out with stream := out.stream ++ transcript written } := by
  rw [h.writeAll_eq]
  by_cases hlevel : 0 < level
  · refine writeAll_stream (by simp [start, hlevel]) (fun m hm => ?_) out
    rw [h.eq_filter] at hm
    exact (List.mem_filter.mp hm).2
  · rw [h.silent (show level ≤ 0 by omega)]
    simp [writeAll, transcript]

-- ---------------------------------------------------------------------------
-- Reading
-- ---------------------------------------------------------------------------

open Parse

/-- A rule gives under the log what it gives without it. -/
structure Follows {α : Type} (log : Log) (plain logged : Traced α) : Prop where
  value : logged.value = plain.value
  trace : log.Passes plain.trace logged.trace

/-- Going on from the outcome of a rule, after messages of its own. -/
theorem Follows.map {α β : Type} {plain logged : Traced α} (h : log.Follows plain logged)
    (f : α → β) {ms written : List Message} (hms : log.Passes ms written) :
    log.Follows ⟨f plain.value, ms ++ plain.trace⟩ ⟨f logged.value, written ++ logged.trace⟩ :=
  ⟨congrArg f h.value, hms.append h.trace⟩

theorem conditionMessage_passes (log : Log) (condition : Node) :
    log.Passes [conditionMessage condition] (log.emit (conditionMessage condition)) :=
  .emit (Int.ofNat_succ_pos 2)

mutual
theorem follows_statement (log : Log) (ts : List Token) :
    log.Follows (Parse.statement ts) (log.statement ts) := by
  match ts with
  | [] =>
    unfold Parse.statement Log.statement
    exact ⟨rfl, .nil⟩
  | t :: ts =>
    unfold Parse.statement Log.statement
    by_cases hkind : t.kind = .ifWord
    · simp only [if_pos hkind]
      match expression ts with
      | .failed f rest _ => exact ⟨rfl, .nil⟩
      | .found condition [] _ => exact ⟨rfl, conditionMessage_passes log condition⟩
      | .found condition (u :: rest) hshorter =>
        by_cases hthen : u.kind = .thenWord
        · have hbody := follows_branches log condition [] none rest
          simp only [if_pos hthen]
          exact hbody.map _ (conditionMessage_passes log condition)
        · simp only [if_neg hthen]
          exact ⟨rfl, conditionMessage_passes log condition⟩
    · simp only [if_neg hkind]
      exact ⟨rfl, .nil⟩
termination_by 2 * ts.length
decreasing_by simp only [List.length_cons] at hshorter ⊢; omega

theorem follows_branches (log : Log) (condition : Node) (body : List Node)
    (otherwise : Option (List Node)) (ts : List Token) :
    log.Follows (Parse.branches condition body otherwise ts)
      (log.branches condition body otherwise ts) := by
  match ts with
  | [] =>
    unfold Parse.branches Log.branches
    exact ⟨rfl, .nil⟩
  | t :: ts =>
    unfold Parse.branches Log.branches
    by_cases hnewline : t.kind = .newline
    · simp only [if_pos hnewline]
      exact ⟨rfl, .nil⟩
    by_cases helse : t.kind = .elseWord
    · simp only [if_neg hnewline, if_pos helse]
      match otherwise with
      | some statements => exact ⟨rfl, .nil⟩
      | none =>
        have hfurther := follows_branches log condition body (some []) ts
        exact hfurther.map _ .nil
    by_cases hend : t.kind = .endWord
    · simp only [if_neg hnewline, if_neg helse, if_pos hend]
      exact ⟨rfl, .nil⟩
    simp only [if_neg hnewline, if_neg helse, if_neg hend]
    have hfirst := follows_statement log (t :: ts)
    rw [hfirst.value]
    match (Parse.statement (t :: ts)).value with
    | .failed f rest _ => exact ⟨rfl, hfirst.trace⟩
    | .found s rest hfewer =>
      have hshorter : rest.length < ts.length + 1 := hfewer
      match otherwise with
      | none =>
        have hfurther := follows_branches log condition (body ++ [s]) none rest
        exact hfurther.map _ hfirst.trace
      | some statements =>
        have hfurther := follows_branches log condition body (some (statements ++ [s])) rest
        exact hfurther.map _ hfirst.trace
termination_by 2 * ts.length + 1
decreasing_by all_goals simp only [List.length_cons]; omega
end

theorem parsedMessage_audible (s : Node) : 0 < (parsedMessage s).level := Int.ofNat_succ_pos 1

/-- A line or a program is read under the log as it is read without it. -/
structure Repeats (log : Log) (plain logged : Reading) : Prop where
  result : logged.result = plain.result
  rest : logged.rest = plain.rest
  trace : log.Passes plain.trace logged.trace

theorem Repeats.prepend {plain logged : Reading} (h : log.Repeats plain logged)
    {ms written : List Message} (hms : log.Passes ms written) :
    log.Repeats (plain.prepend ms) (logged.prepend written) :=
  ⟨h.result, h.rest, hms.append h.trace⟩

theorem failureTrace_passes (log : Log) (soFar : List Node) (rest : List Token)
    (f : Failure StatementFault) :
    log.Passes (failureMessages soFar rest f) (log.failureTrace soFar rest f) := by
  refine .flatMap_emit fun m hm => ?_
  cases f with
  | fault f =>
    simp only [failureMessages, List.mem_cons, List.not_mem_nil, or_false] at hm
    rcases hm with rfl | rfl | rfl <;> exact Int.ofNat_succ_pos _
  | token f => cases hm

theorem repeats_lineFrom (log : Log) (soFar : List Node) (ts : List Token) :
    log.Repeats (Parse.lineFrom soFar ts) (log.lineFrom soFar ts) := by
  fun_induction Parse.lineFrom soFar ts with
  | case1 soFar =>
    rw [Log.lineFrom]
    exact ⟨rfl, rfl, .emit (Int.ofNat_succ_pos 0)⟩
  | case2 soFar t ts hkind =>
    rw [Log.lineFrom, if_pos hkind]
    exact ⟨rfl, rfl, .emit (Int.ofNat_succ_pos 0)⟩
  | case3 soFar t ts hkind next f rest within hfailed =>
    have hnext := follows_statement log (t :: ts)
    have hvalue : (log.statement (t :: ts)).value = _ := hnext.value.trans hfailed
    rw [Log.lineFrom, if_neg hkind]
    simp only [hvalue]
    exact ⟨rfl, rfl, hnext.trace.append (failureTrace_passes log soFar rest f)⟩
  | case4 soFar t ts hkind next s rest fewer hfound ih =>
    have hnext := follows_statement log (t :: ts)
    have hvalue : (log.statement (t :: ts)).value = _ := hnext.value.trans hfound
    rw [Log.lineFrom, if_neg hkind]
    simp only [hvalue]
    exact ih.prepend (hnext.trace.append (.emit (parsedMessage_audible s)))

theorem repeats_programFrom (log : Log) (lines soFar : List Node) (ts : List Token) :
    log.Repeats (Parse.programFrom lines soFar ts) (log.programFrom lines soFar ts) := by
  fun_induction Parse.programFrom lines soFar ts with
  | case1 lines soFar hempty =>
    rw [Log.programFrom, if_pos hempty]
    exact ⟨rfl, rfl, .nil⟩
  | case2 lines soFar hempty =>
    rw [Log.programFrom, if_neg hempty]
    exact ⟨rfl, rfl, .emit (Int.ofNat_succ_pos 0)⟩
  | case3 lines soFar t ts hkind ih =>
    rw [Log.programFrom, if_pos hkind]
    exact ih.prepend (.emit (Int.ofNat_succ_pos 0))
  | case4 lines soFar t ts hkind next f rest within hfailed =>
    have hnext := follows_statement log (t :: ts)
    have hvalue : (log.statement (t :: ts)).value = _ := hnext.value.trans hfailed
    rw [Log.programFrom, if_neg hkind]
    simp only [hvalue]
    exact ⟨rfl, rfl, hnext.trace.append (failureTrace_passes log soFar rest f)⟩
  | case5 lines soFar t ts hkind next s rest fewer hfound ih =>
    have hnext := follows_statement log (t :: ts)
    have hvalue : (log.statement (t :: ts)).value = _ := hnext.value.trans hfound
    rw [Log.programFrom, if_neg hkind]
    simp only [hvalue]
    exact ih.prepend (hnext.trace.append (.emit (parsedMessage_audible s)))

theorem repeats_program (log : Log) (ts : List Token) :
    log.Repeats (Parse.program ts) (log.program ts) :=
  repeats_programFrom log [] [] ts

/-- Also the cursor is moved to the same place. -/
theorem repeats_readLine (log : Log) (c : Cursor) :
    (log.readLine c).1 = c.readLine.1 ∧ log.Repeats c.readLine.2 (log.readLine c).2 := by
  unfold Log.readLine Cursor.readLine
  by_cases hbefore : c.position < 0
  · simp only [if_pos hbefore]
    exact ⟨trivial, rfl, rfl, failureTrace_passes log [] (c.window 3) (.fault _)⟩
  by_cases hbehind : c.tokens.length ≤ c.position
  · simp only [if_neg hbefore, if_pos hbehind]
    exact ⟨trivial, repeats_lineFrom log [] []⟩
  simp only [if_neg hbefore, if_neg hbehind]
  have hline := repeats_lineFrom log [] c.rest
  exact ⟨congrArg c.moveTo hline.rest, hline⟩

-- ---------------------------------------------------------------------------
-- Running
-- ---------------------------------------------------------------------------

open Run

/-- The outcome of an action under the log is its outcome without one. -/
structure Matches {α : Type} (log : Log) (plain logged : Outcome α) : Prop where
  result : logged.result = plain.result
  env : logged.env = plain.env
  trace : log.Passes plain.trace logged.trace

/-- An action gives and does under the log what it gives and does without it. -/
def Mirrors {α : Type} (log : Log) (plain logged : Action α) : Prop :=
  ∀ env, log.Matches (plain env) (logged env)

namespace Mirrors

variable {α β : Type}

/-- Actions that report nothing. -/
theorem quiet {x : Action α} (h : ∀ env, (x env).trace = []) : log.Mirrors x x :=
  fun env => ⟨rfl, rfl, h env ▸ .nil⟩

theorem pure (a : α) : log.Mirrors (Action.pure a) (Action.pure a) := .quiet fun _ => rfl

theorem fail (e : Fault) : log.Mirrors (Action.fail e : Action α) (Action.fail e) :=
  .quiet fun _ => rfl

theorem lift (result : Except RuntimeFault α) :
    log.Mirrors (Action.lift result) (Action.lift result) := by
  cases result with
  | ok a => exact .pure a
  | error e => exact .fail _

theorem modifyEnv (f : Environment → Environment) :
    log.Mirrors (Action.modifyEnv f) (Action.modifyEnv f) :=
  .quiet fun _ => rfl

theorem getEnv : log.Mirrors Action.getEnv Action.getEnv := .quiet fun _ => rfl

theorem report {m : Message} (hm : 0 < m.level) : log.Mirrors (Action.report m) (log.report m) :=
  fun _ => ⟨rfl, rfl, .emit hm⟩

theorem bind {x x' : Action α} {f f' : α → Action β} (hx : log.Mirrors x x')
    (hf : ∀ a, log.Mirrors (f a) (f' a)) : log.Mirrors (x >>= f) (x' >>= f') := by
  intro env
  have hfirst := hx env
  show log.Matches (Action.bind x f env) (Action.bind x' f' env)
  simp only [Action.bind, hfirst.result, hfirst.env]
  cases (x env).result with
  | error e => exact ⟨rfl, rfl, hfirst.trace⟩
  | ok a =>
    have hsecond := hf a (x env).env
    exact ⟨hsecond.result, hsecond.env, hfirst.trace.append hsecond.trace⟩

/-! ## Expressions -/

theorem readVariable (target : Node) :
    log.Mirrors (readVariable target) (readVariable target) := by
  unfold Run.readVariable
  cases target.collection? with
  | some name => exact .fail _
  | none => exact getEnv.bind fun _ => .pure _

theorem stepVariable (op : Operator) (target : Node) :
    log.Mirrors (stepVariable op target) (stepVariable op target) := by
  refine (readVariable target).bind fun found => ?_
  cases found with
  | number old => exact (modifyEnv _).bind fun _ => .pure _
  | text s => exact .fail _
  | other content => exact .fail _

theorem step (op : Operator) (a : Node) : log.Mirrors (Run.step op a) (Run.step op a) := by
  unfold Run.step
  split
  · exact stepVariable op _
  · exact stepVariable op _
  · exact .fail _

/-- Expressions report nothing. -/
theorem evaluate (e : Node) : log.Mirrors (evaluate e) (evaluate e) := by
  match e with
  | .value a | .group a => exact evaluate a
  | .number _ | .text _ | .misfit .text _ => exact .pure _
  | .identifier _ | .misfit (.name _) _ => exact readVariable _
  | .unary op a =>
    rw [Run.evaluate]
    split
    · exact step op a
    · exact (evaluate a).bind fun _ => .lift _
  | .binary op a b => exact (evaluate a).bind fun _ => (evaluate b).bind fun _ => .lift _
  | .missing | .misfit .comment _ | .comment _ | .goto _ | .ifThen .. | .ifElse .. | .assignment ..
  | .evaluation _ | .line _ | .program _ => exact .fail _

/-! ## Statements -/

theorem assigned (target : Node) (op : Operator) (value : Value) :
    log.Mirrors (assigned target op value) (assigned target op value) := by
  unfold Run.assigned
  split
  · exact .pure _
  · cases op.compound? with
    | none => exact .fail _
    | some inner => exact getEnv.bind fun _ => .lift _

theorem assign (log : Log) (target : Node) (op : Operator) (value : Value) :
    log.Mirrors (Run.assign target op value) (log.assign target op value) := by
  unfold Run.assign Log.assign
  cases target.collection? with
  | some name => exact .fail _
  | none =>
    refine (assigned target op value).bind fun stored => ?_
    exact (modifyEnv _).bind fun _ => .report (Int.ofNat_succ_pos 1)

theorem jump (log : Log) (value : Value) : log.Mirrors (Run.jump value) (log.jump value) := by
  cases value with
  | number n => exact (modifyEnv _).bind fun _ => .report (Int.ofNat_succ_pos 1)
  | text s => exact .fail _
  | other content => exact .fail _

theorem test (log : Log) (condition : Node) :
    log.Mirrors (Run.test condition) (log.test condition) :=
  (evaluate condition).bind fun _ =>
    (Mirrors.report (Int.ofNat_succ_pos 2)).bind fun _ => .pure _

end Mirrors

mutual
theorem mirrors_execute (log : Log) (s : Node) : log.Mirrors (Run.execute s) (log.execute s) := by
  match s with
  | .comment _ | .misfit .comment _ => exact .pure ()
  | .goto a => exact (Mirrors.evaluate a).bind fun value => .jump log value
  | .ifThen c body =>
    refine (Mirrors.test log c).bind fun holds => ?_
    cases holds with
    | true => exact mirrors_executeAll log body
    | false => exact .pure ()
  | .ifElse c body otherwise =>
    refine (Mirrors.test log c).bind fun holds => ?_
    cases holds with
    | true => exact mirrors_executeAll log body
    | false => exact mirrors_executeAll log otherwise
  | .assignment target op a =>
    exact (Mirrors.evaluate a).bind fun value => .assign log target op value
  | .evaluation a => exact (Mirrors.evaluate a).bind fun _ => .pure ()
  | .missing | .misfit .text _ | .misfit (.name _) _ | .number _ | .text _ | .identifier _
  | .group _ | .value _ | .unary .. | .binary .. | .line _ | .program _ => exact .fail _

theorem mirrors_executeAll (log : Log) (ss : List Node) :
    log.Mirrors (Run.executeAll ss) (log.executeAll ss) := by
  match ss with
  | [] => exact .pure ()
  | s :: ss => exact (mirrors_execute log s).bind fun _ => mirrors_executeAll log ss
end

/-! ## Lines and programs -/

theorem mirrors_reportLine (log : Log) (line : Node) :
    log.Mirrors (Run.reportLine line) (log.reportLine line) := by
  unfold Run.reportLine Log.reportLine
  cases line.unwritable? with
  | some name => exact .fail _
  | none => exact Mirrors.getEnv.bind fun _ => .report (Int.ofNat_succ_pos 0)

theorem mirrors_runLine (log : Log) (line : Node) :
    log.Mirrors (Run.runLine line) (log.runLine line) := by
  refine (mirrors_reportLine log line).bind fun _ => ?_
  cases line with
  | line statements => exact mirrors_executeAll log statements
  | _ => exact .fail _

theorem Mirrors.recordFault {x x' : Action Unit} (h : log.Mirrors x x') :
    log.Mirrors (Run.recordFault x) (log.recordFault x') := by
  intro env
  have hx := h env
  unfold Run.recordFault Log.recordFault
  cases hresult : (x env).result with
  | ok _ =>
    simp only [hx.result, hresult]
    exact hx
  | error fault =>
    cases fault with
    | runtime f =>
      simp only [hx.result, hx.env, hresult]
      exact ⟨rfl, rfl, hx.trace.append (.emit (Int.ofNat_succ_pos 0))⟩
    | tree f | token f =>
      simp only [hx.result, hresult]
      exact hx

theorem mirrors_runNext (log : Log) (lines : List Node) :
    log.Mirrors (Run.runNext lines) (log.runNext lines) := by
  refine Mirrors.getEnv.bind fun env => (Mirrors.modifyEnv _).bind fun _ => ?_
  cases lines[currentLine lines.length env.nextLine - 1]? with
  | some line => exact (mirrors_runLine log line).recordFault
  | none => exact .pure ()

theorem mirrors_runLines (log : Log) (lines : List Node) (count : Nat) :
    log.Mirrors (Run.runLines lines count) (log.runLines lines count) := by
  induction count with
  | zero => exact .pure ()
  | succ count ih => exact (mirrors_runNext log lines).bind fun _ => ih

/-- Under a log a program does what it does without one, and the log lets through what it
    admits of all the messages. -/
theorem mirrors_runProgram (log : Log) (program : Node) (steps : Int) :
    log.Mirrors (Run.runProgram program steps) (log.runProgram program steps) := by
  cases program with
  | program lines =>
    cases lines with
    | nil => exact .pure ()
    | cons line lines => exact mirrors_runLines log (line :: lines) steps.toNat
  | _ => exact .fail _

-- ---------------------------------------------------------------------------
-- Levels
-- ---------------------------------------------------------------------------

/-- `Quieter i quiet loud`: the messages `quiet` are those of `loud` that are not above level `i`,
    and at level zero there are none. -/
def Quieter (i : Int) (quiet loud : List Message) : Prop :=
  quiet = loud.filter (·.level ≤ i) ∧ (i ≤ 0 → quiet = [])

theorem Passes.levels {i j : Int} {ms quiet loud : List Message} (hij : i ≤ j)
    (h : (Log.start i .stream).Passes ms quiet) (h' : (Log.start j .stream).Passes ms loud) :
    Quieter i quiet loud :=
  ⟨h.quieter h' hij, h.silent⟩

/-- How much is traced changes nothing else, and a louder log only writes more: of programs and
    lines of tokens, the same is found or reported, and the same tokens are left; a run gives
    the same result and leaves the same environment; and what is written to a stream at
    one level are the messages up to this level that are written at a higher one. -/
theorem levels_change_only_messages {i j : Int} (hij : i ≤ j) :
    (∀ ts : List Token,
      let quiet := (Log.start i .stream).program ts
      let loud := (Log.start j .stream).program ts
      quiet.result = loud.result ∧ quiet.rest = loud.rest ∧ Quieter i quiet.trace loud.trace ∧
        ∀ out, (Log.start i .stream).writeAll out (Parse.program ts).trace =
          { out with stream := out.stream ++ transcript quiet.trace }) ∧
    (∀ c : Cursor,
      let quiet := (Log.start i .stream).readLine c
      let loud := (Log.start j .stream).readLine c
      quiet.2.result = loud.2.result ∧ quiet.1 = loud.1 ∧ Quieter i quiet.2.trace loud.2.trace ∧
        ∀ out, (Log.start i .stream).writeAll out c.readLine.2.trace =
          { out with stream := out.stream ++ transcript quiet.2.trace }) ∧
    (∀ (program : Node) (steps : Int) (env : Environment),
      let quiet := (Log.start i .stream).runProgram program steps env
      let loud := (Log.start j .stream).runProgram program steps env
      quiet.result = loud.result ∧ quiet.env = loud.env ∧ Quieter i quiet.trace loud.trace ∧
        ∀ out, (Log.start i .stream).writeAll out (Run.runProgram program steps env).trace =
          { out with stream := out.stream ++ transcript quiet.trace }) := by
  refine ⟨fun ts => ?_, fun c => ?_, fun program steps env => ?_⟩
  · have hquiet := repeats_program (Log.start i .stream) ts
    have hloud := repeats_program (Log.start j .stream) ts
    exact ⟨hquiet.result.trans hloud.result.symm, hquiet.rest.trans hloud.rest.symm,
      hquiet.trace.levels hij hloud.trace, hquiet.trace.writeAll_start⟩
  · obtain ⟨hplace, hquiet⟩ := repeats_readLine (Log.start i .stream) c
    obtain ⟨hplace', hloud⟩ := repeats_readLine (Log.start j .stream) c
    exact ⟨hquiet.result.trans hloud.result.symm, hplace.trans hplace'.symm,
      hquiet.trace.levels hij hloud.trace, hquiet.trace.writeAll_start⟩
  · have hquiet := mirrors_runProgram (Log.start i .stream) program steps env
    have hloud := mirrors_runProgram (Log.start j .stream) program steps env
    exact ⟨hquiet.result.trans hloud.result.symm, hquiet.env.trans hloud.env.symm,
      hquiet.trace.levels hij hloud.trace, hquiet.trace.writeAll_start⟩

/-- The tokens of `x if x then` and a newline. -/
def openConditional : List Token :=
  [{ kind := .identifier, text := some "x" }, { kind := .ifWord },
    { kind := .identifier, text := some "x" }, { kind := .thenWord }, { kind := .newline }]

theorem level_openConditional :
    (Parse.program openConditional).trace.map (·.level) = [2, 3, 2, 2, 1] := by
  have hparsed : ∀ s, (parsedMessage s).level = 2 := fun _ => rfl
  have hcondition : ∀ e, (conditionMessage e).level = 3 := fun _ => rfl
  have hfailure : ∀ soFar rest f,
      (failureMessages soFar rest (.fault f)).map (·.level) = [2, 2, 1] := fun _ _ _ => rfl
  simp [openConditional, Parse.program, Parse.programFrom, Parse.statement, Parse.branches,
    simpleStatement, expressionStatement, assignment?, expression, chain, operand, power, repeated,
    unary, atom, step?, single, identifierOf, Identifier.ofSource, Step.ofToken, Step.map,
    factorials, Step.widen, extend, Tier.operator?, Reading.prepend, hparsed, hcondition, hfailure]

/-- The program `x = "y" goto "y"`. -/
def misledJump : Node :=
  .program [.line [.assignment (.identifier ⟨"x", false⟩) .assign (.value (.text "y")),
    .goto (.value (.text "y"))]]

/-- What is written of a conditional without an end, and of a jump to a text, at level one and
    at level three. -/
theorem levels_change_only_messages_faults :
    (1 : Int) ≤ 3 ∧
    (let quiet := (Log.start 1 .stream).program openConditional
      let loud := (Log.start 3 .stream).program openConditional
      quiet.result = loud.result ∧ quiet.trace = loud.trace.filter (·.level ≤ 1) ∧
        quiet.trace.map (·.level) = [1] ∧ loud.trace.map (·.level) = [2, 3, 2, 2, 1]) ∧
    (let env : Environment := { store := ⟨[], List.nodup_nil⟩ }
      let quiet := (Log.start 1 .stream).runProgram misledJump 1 env
      let loud := (Log.start 3 .stream).runProgram misledJump 1 env
      quiet.env = loud.env ∧ quiet.trace = loud.trace.filter (·.level ≤ 1) ∧
        quiet.trace.map (·.level) = [1, 1] ∧ loud.trace.map (·.level) = [1, 2, 1]) := by
  have hij : (1 : Int) ≤ 3 := by decide
  obtain ⟨hresult, -, hquieter, -⟩ := (levels_change_only_messages hij).1 openConditional
  obtain ⟨-, henv, hquieter', -⟩ := (levels_change_only_messages hij).2.2 misledJump 1
    { store := ⟨[], List.nodup_nil⟩ }
  refine ⟨hij, ⟨hresult, hquieter.1, ?_, ?_⟩, henv, hquieter'.1, rfl, rfl⟩
  · rw [(repeats_program _ openConditional).trace.map_level, level_openConditional]
    rfl
  · rw [(repeats_program _ openConditional).trace.map_level, level_openConditional]
    rfl

end Log

end Yolol

-- SUMMARY: Reading lines one by one from a cursor agrees with reading the program at once.
import Yolol.Proofs.LineLocality

/-!
# Programs line by line

A host may read a whole program, or lines from one cursor while there are tokens left. Both
find the same lines. If a line cannot be read, both stop at the same token with the same
failure, and the host that reads line by line has got the lines in front of it.
-/

namespace Yolol.Parse

open Token

/-! ## Failures stay within the line -/

/-- No newline stands in `ts` in front of `rest`. -/
def WithinLine (ts rest : List Token) : Prop :=
  ∃ used, ts = used ++ rest ∧ ∀ t ∈ used, t.kind ≠ .newline

namespace WithinLine

variable {ts mid rest : List Token}

theorem refl : WithinLine ts ts := ⟨[], rfl, by simp⟩

theorem cons {t : Token} (ht : t.kind ≠ .newline) (h : WithinLine ts rest) :
    WithinLine (t :: ts) rest := by
  obtain ⟨used, rfl, hused⟩ := h
  exact ⟨t :: used, rfl, List.forall_mem_cons.mpr ⟨ht, hused⟩⟩

theorem cons_kind {t : Token} {kind : Kind} (ht : t.kind = kind) (h : WithinLine ts rest)
    (hkind : kind ≠ .newline := by decide) : WithinLine (t :: ts) rest :=
  h.cons (ht ▸ hkind)

theorem trans (h : WithinLine ts mid) (h' : WithinLine mid rest) : WithinLine ts rest := by
  obtain ⟨used, rfl, hused⟩ := h
  obtain ⟨used', rfl, hused'⟩ := h'
  exact ⟨used ++ used', by simp, List.forall_mem_append.mpr ⟨hused, hused'⟩⟩

theorem suffix (h : WithinLine ts rest) : rest <:+ ts := by
  obtain ⟨used, rfl, -⟩ := h
  exact List.suffix_append used rest

theorem of_passes (h : Passes ts rest) : WithinLine ts rest := by
  obtain ⟨used, rfl, hused⟩ := h
  refine ⟨used, rfl, fun t ht hkind => ?_⟩
  have hinner := hused t ht
  rw [hkind] at hinner
  cases hinner

/-- The tokens of a binary operator stand within a line. -/
theorem operator {tier : Tier} {t : Token} {op : Operator} {more : Nat}
    (h : tier.operator? t.kind (kindAt ts) = some (op, more)) :
    WithinLine (t :: ts) (ts.drop more) :=
  of_passes (.of_spells (operator?_symbols h))

theorem leading {t : Token} {op : Operator} (h : leadingOperator? t.kind = some op) :
    WithinLine (t :: ts) ts := by
  refine refl.cons fun hkind => ?_
  rw [hkind] at h
  cases h

/-- The tokens in front of the value of an assignment stand within a line. -/
theorem assignment {a : Token} {op : Operator} {more : Nat}
    (h : assignmentAt? (a :: ts) = some (op, more)) : WithinLine (a :: ts) (ts.drop more) := by
  obtain ⟨_, b, c, us, heq, ha, hform⟩ := assignmentAt?_eq_some h
  cases heq
  rcases hform with ⟨hb, -, -, rfl⟩ | ⟨hc, hcompound, rfl⟩
  · exact (refl.cons_kind hb).cons_kind ha
  · have hb : b.kind ≠ .newline := fun h => by simp [h, compoundAssignment?] at hcompound
    exact ((refl.cons_kind hc).cons hb).cons_kind ha

end WithinLine

theorem Derives.withinLine {rule : Rule} {ts rest : List Token} {e : Node}
    (h : Derives rule ts e rest) : WithinLine ts rest :=
  .of_passes h.passes

theorem Fails.withinLine {rule : Rule} {ts rest : List Token} {f : Failure ExpressionFault}
    (h : Fails rule ts f rest) : WithinLine ts rest := by
  induction h with
  | chainFirst _ ih | operandChain _ _ ih | operandPower _ _ ih | powerFirst _ ih
  | repeated _ ih | unaryAtom _ ih | atomSingle _ _ ih => exact ih
  | chainMore hfirst _ ih => exact hfirst.withinLine.trans ih
  | extendAbsent hoperator => exact .operator hoperator
  | extendFault hoperator _ ih | extendToken hoperator _ ih =>
    exact (WithinLine.operator hoperator).trans ih
  | extendStep hoperator hoperand _ ih =>
    exact (WithinLine.operator hoperator).trans (hoperand.withinLine.trans ih)
  | powerAbsent hfirst hcaret =>
    exact hfirst.withinLine.trans (WithinLine.refl.cons_kind hcaret)
  | powerStep hfirst hcaret _ ih =>
    exact hfirst.withinLine.trans (ih.cons_kind hcaret)
  | unaryAbsent hoperator => exact .leading hoperator
  | unaryLeading hoperator _ _ ih => exact (WithinLine.leading hoperator).trans ih
  | atomStep => exact .refl
  | number hkind | identifier hkind | groupAbsent hkind => exact WithinLine.refl.cons_kind hkind
  | groupContent hopening _ ih => exact ih.cons_kind hopening
  | groupUnclosed hopening hcontent =>
    exact hcontent.withinLine.cons_kind hopening

theorem Stuck.withinLine {ts rest : List Token} {f : Failure ExpressionFault}
    (h : Stuck ts f rest) : WithinLine ts rest := by
  cases h with
  | within hfails => exact hfails.withinLine
  | before => exact .refl

theorem Composes.withinLine {phase : Phase} {ts rest : List Token} {s : Node}
    (h : Composes phase ts s rest) : WithinLine ts rest := by
  induction h with
  | comment hkind | close hkind => exact WithinLine.refl.cons_kind hkind
  | goto hkind htarget => exact htarget.withinLine.cons_kind hkind
  | assignment hspelled _ hvalue =>
    exact (WithinLine.assignment hspelled).trans hvalue.withinLine
  | evaluation _ hvalue => exact hvalue.withinLine
  | conditional hkind htest hthen _ ih =>
    exact (htest.withinLine.trans (ih.cons_kind hthen)).cons_kind hkind
  | turn hkind _ ih => exact ih.cons_kind hkind
  | bodyStep _ _ ihfirst ihnext | otherwiseStep _ _ ihfirst ihnext => exact ihfirst.trans ihnext

theorem Breaks.withinLine {phase : Phase} {ts rest : List Token} {f : Failure StatementFault}
    (h : Breaks phase ts f rest) : WithinLine ts rest := by
  induction h with
  | goto hkind hstuck | test hkind hstuck => exact hstuck.withinLine.cons_kind hkind
  | assignmentName | missingEnd | repeatedElse => exact .refl
  | assignment hspelled _ hstuck => exact (WithinLine.assignment hspelled).trans hstuck.withinLine
  | evaluation _ hstuck => exact hstuck.withinLine
  | missingThen hkind htest => exact htest.withinLine.cons_kind hkind
  | conditional hkind htest hthen _ ih =>
    exact (htest.withinLine.trans (ih.cons_kind hthen)).cons_kind hkind
  | turn hkind _ ih => exact ih.cons_kind hkind
  | first _ ih => exact ih
  | bodyStep hfirst _ ih | otherwiseStep hfirst _ ih => exact hfirst.withinLine.trans ih

/-- A line that cannot be read is left in front of its newline. -/
theorem withinLine_of_error {soFar : List Node} {ts : List Token} {f : Failure StatementFault}
    (h : (lineFrom soFar ts).result = .error f) : WithinLine ts (lineFrom soFar ts).rest := by
  fun_induction lineFrom soFar ts with
  | case1 | case2 => cases h
  | case3 soFar t ts _ _ g rest _ hfailed => exact (breaks_of_statement hfailed).withinLine
  | case4 soFar t ts _ _ s rest _ hfound ih =>
    exact (composes_of_statement hfound).withinLine.trans (ih h)

/-- Tokens are those of a line and what follows them. -/
theorem exists_line (ts : List Token) : ∃ tail, WithinLine ts tail ∧ EndsLine tail := by
  induction ts with
  | nil => exact ⟨[], .refl, .inl rfl⟩
  | cons t ts ih =>
    by_cases ht : t.kind = .newline
    · exact ⟨t :: ts, .refl, .inr (congrArg some ht)⟩
    · obtain ⟨tail, hwithin, hends⟩ := ih
      exact ⟨tail, hwithin.cons ht, hends⟩

/-- A line that can be read ends with a newline, unless nothing is left. -/
theorem exists_newline {ts : List Token} {node : Node} (h : (line ts).result = .ok node)
    (hleft : (line ts).rest ≠ []) :
    ∃ used t, ts = used ++ t :: (line ts).rest ∧ (∀ u ∈ used, u.kind ≠ .newline) ∧
      t.kind = .newline := by
  obtain ⟨tail, ⟨used, rfl, hused⟩, hends⟩ := exists_line ts
  have hrest : (line (used ++ tail)).rest = tail.tail := rest_lineFrom hused hends h
  rw [hrest] at hleft ⊢
  rcases hends with rfl | hnewline
  · simp at hleft
  · have hnewline : kindAt tail = some .newline := hnewline
    obtain ⟨t, rest, rfl, ht⟩ := kindAt_eq_some hnewline
    exact ⟨used, t, rfl, hused, ht⟩

theorem suffix_line {ts : List Token} {node : Node} (h : (line ts).result = .ok node) :
    (line ts).rest <:+ ts := by
  by_cases hleft : (line ts).rest = []
  · rw [hleft]
    exact List.nil_suffix
  · obtain ⟨used, t, hts, -⟩ := exists_newline h hleft
    exact ⟨used ++ [t], by rw [List.append_assoc]; exact hts.symm⟩

end Yolol.Parse

namespace Yolol.Cursor

open Parse

/-! ## Reading from a cursor -/

variable {c : Cursor}

@[simp] theorem remaining_moveTo (rest : List Token) : (c.moveTo rest).remaining = rest.length := by
  simp only [moveTo, remaining]
  omega

theorem length_rest (hpos : 0 ≤ c.position) : c.rest.length = c.remaining.toNat := by
  simp only [rest, remaining, List.length_drop]
  omega

theorem rest_moveTo {rest : List Token} (h : rest <:+ c.tokens) : (c.moveTo rest).rest = rest := by
  obtain ⟨used, hused⟩ := h
  simp [Cursor.rest, moveTo, ← hused]

theorem readLine_of_left (hpos : 0 ≤ c.position) (hleft : 0 < c.remaining) :
    c.readLine = (c.moveTo (line c.rest).rest, line c.rest) := by
  have hwithin : ¬ (c.tokens.length : Int) ≤ c.position := by
    simp only [remaining] at hleft
    omega
  rw [readLine, if_neg (by omega), if_neg hwithin]

/-- In front of the list no line can be read. -/
theorem position_nonneg {node : Node} (h : c.readLine.2.result = .ok node) : 0 ≤ c.position := by
  by_contra hneg
  rw [readLine, if_pos (by omega)] at h
  cases h

/-- A line that can be read takes a token, if any is left. -/
theorem remaining_readLine {node : Node} (hleft : 0 < c.remaining)
    (h : c.readLine.2.result = .ok node) : c.readLine.1.remaining.toNat < c.remaining.toNat := by
  have hpos := position_nonneg h
  rw [readLine_of_left hpos hleft] at h ⊢
  have hshorter : (line c.rest).rest.length ≤ c.rest.length - 1 := length_rest_lineFrom [] c.rest h
  have hlength := length_rest hpos
  simp only [remaining_moveTo, Int.toNat_natCast]
  omega

/-- What reading line by line came to: the lines, the failure that it ended with, if any,
    and where the cursor was left. -/
structure Progress where
  lines : List Node := []
  failure : Option (Failure StatementFault) := none
  cursor : Cursor

/-- The lines as a program, unless there was a failure. -/
def Progress.result (p : Progress) : Except (Failure StatementFault) Node :=
  match p.failure with
  | none => .ok (.program p.lines)
  | some f => .error f

/-- Put lines in front. -/
def Progress.prepend (lines : List Node) (p : Progress) : Progress :=
  { p with lines := lines ++ p.lines }

/-- Read lines while any token is left, up to the first that cannot be read. -/
def readLines (c : Cursor) : Progress :=
  if hleft : 0 < c.remaining then
    match h : c.readLine.2.result with
    | .error f => { failure := some f, cursor := c.readLine.1 }
    | .ok line =>
      have := remaining_readLine hleft h
      (readLines c.readLine.1).prepend [line]
  else { cursor := c }
termination_by c.remaining.toNat

/-- Reading that does not fail goes on to the end. -/
theorem remaining_readLines (hc : 0 ≤ c.remaining) (h : c.readLines.failure = none) :
    c.readLines.cursor.remaining = 0 := by
  fun_induction readLines c with
  | case1 => cases h
  | case2 c hleft node hread _ ih =>
    refine ih ?_ h
    rw [readLine_of_left (position_nonneg hread) hleft, remaining_moveTo]
    omega
  | case3 c hleft =>
    simp only
    omega

theorem readLines_nil : (c.moveTo []).readLines = { cursor := c.moveTo [] } := by
  rw [readLines, dif_neg (by simp)]

/-- One call reads the first line of what is left. -/
theorem readLines_moveTo {rest : List Token} (hsuffix : rest <:+ c.tokens) (hne : rest ≠ []) :
    (c.moveTo rest).readLines =
      match (line rest).result with
      | .error f => { failure := some f, cursor := c.moveTo (line rest).rest }
      | .ok first => (c.moveTo (line rest).rest).readLines.prepend [first] := by
  have hpos : 0 ≤ (c.moveTo rest).position := by
    have hle := hsuffix.length_le
    simp only [moveTo]
    omega
  have hleft : 0 < (c.moveTo rest).remaining := by
    have hlength := List.length_pos_of_ne_nil hne
    simp only [remaining_moveTo]
    omega
  have hread : (c.moveTo rest).readLine = (c.moveTo (line rest).rest, line rest) := by
    rw [readLine_of_left hpos hleft, rest_moveTo hsuffix]
    rfl
  rw [readLines, dif_pos hleft]
  split <;> next hresult =>
    have hresult : (line rest).result = _ := hread ▸ hresult
    simp only [hread, hresult]

end Yolol.Cursor

namespace Yolol.Parse

/-! ## The two ways of reading -/

open Token Cursor

section
variable {ts : List Token} (hne : ts ≠ []) (done : List Node)

include hne

/-- A program fails as its first line does. -/
theorem programFrom_of_error {f : Failure StatementFault} (h : (line ts).result = .error f) :
    (programFrom done [] ts).outcome = (.error f, (line ts).rest) := by
  have hline : (lineFrom [] ts).result = .error f := h
  rw [outcome_programFrom done [] ts (.inr hne), hline]
  rfl

/-- Behind its first line a program goes on with the next. -/
theorem programFrom_of_ok {first : Node} (h : (line ts).result = .ok first) :
    (programFrom done [] ts).outcome = (programFrom (done ++ [first]) [] (line ts).rest).outcome := by
  have hline : (lineFrom [] ts).result = .ok first := h
  rw [outcome_programFrom done [] ts (.inr hne), hline]
  rfl

end

/-- Reading a program goes on as reading line by line does. -/
theorem programFrom_eq_readLines {c : Cursor} (ts : List Token) :
    ∀ done, ts <:+ c.tokens →
      (programFrom done [] ts).result = ((c.moveTo ts).readLines.prepend done).result ∧
        (c.moveTo ts).readLines.cursor = c.moveTo (programFrom done [] ts).rest := by
  fun_induction lines ts with
  | case1 =>
    intro done _
    rw [readLines_nil, programFrom]
    exact ⟨by simp [Progress.result, Progress.prepend], rfl⟩
  | case2 t ts reading f hline =>
    intro done hsuffix
    have hline : (line (t :: ts)).result = .error f := hline
    obtain ⟨hresult, hrest⟩ := Prod.mk.inj (programFrom_of_error (by simp) done hline)
    rw [readLines_moveTo hsuffix (by simp), hline]
    exact ⟨hresult, congrArg c.moveTo hrest.symm⟩
  | case3 t ts reading first hline _ ih =>
    intro done hsuffix
    have hline : (line (t :: ts)).result = .ok first := hline
    obtain ⟨hresult, hrest⟩ := Prod.mk.inj (programFrom_of_ok (by simp) done hline)
    obtain ⟨hnext, hcursor⟩ := ih (done ++ [first]) ((suffix_line hline).trans hsuffix)
    rw [readLines_moveTo hsuffix (by simp), hline]
    refine ⟨hresult.trans (hnext.trans ?_), hcursor.trans (congrArg c.moveTo hrest.symm)⟩
    simp [reading, Progress.result, Progress.prepend]

/-- The readings of the lines are what the calls return, and the failure after them. -/
theorem results_lines {c : Cursor} (ts : List Token) :
    ts <:+ c.tokens →
      (lines ts).map Reading.result =
        (c.moveTo ts).readLines.lines.map .ok ++
          (c.moveTo ts).readLines.failure.toList.map .error := by
  fun_induction lines ts with
  | case1 =>
    intro _
    rw [readLines_nil]
    rfl
  | case2 t ts reading f hline =>
    intro hsuffix
    have hline : (line (t :: ts)).result = .error f := hline
    rw [readLines_moveTo hsuffix (by simp), hline]
    simp [reading, hline]
  | case3 t ts reading first hline _ ih =>
    intro hsuffix
    have hline : (line (t :: ts)).result = .ok first := hline
    rw [readLines_moveTo hsuffix (by simp), hline, List.map_cons,
      ih ((suffix_line hline).trans hsuffix)]
    simp [reading, hline, Progress.prepend]

/-! ## Where reading breaks off -/

/-- Every line among the tokens has its newline. -/
def WholeLines (ts : List Token) : Prop := ∀ t, ts.getLast? = some t → t.kind = .newline

theorem WholeLines.append {used front : List Token} {t : Token} (ht : t.kind = .newline)
    (h : WholeLines front) : WholeLines (used ++ t :: front) := by
  intro last hlast
  cases front with
  | nil =>
    obtain rfl : t = last := by simpa using hlast
    exact ht
  | cons u front => exact h last (by simpa using hlast)

/-- A line that was read in front of a newline is the first one whatever follows that. -/
theorem programFrom_cons_line {used rest : List Token} {t : Token} {first : Node}
    (hused : ∀ t ∈ used, t.kind ≠ .newline) (ht : t.kind = .newline)
    (hfirst : (line (used ++ t :: rest)).result = .ok first) (done : List Node)
    (front : List Token) :
    (programFrom done [] (used ++ t :: front)).result =
      (programFrom (done ++ [first]) [] front).result := by
  have hends (us : List Token) : EndsLine (t :: us) := .inr (congrArg some ht)
  have helsewhere : (line (used ++ t :: front)).result = .ok first :=
    (lineFrom_elsewhere hfirst (hends rest) (hends front) _ (sameLine_append hused rfl)).1
  have hrest : (line (used ++ t :: front)).rest = front :=
    rest_lineFrom hused (hends front) helsewhere
  have houtcome := programFrom_of_ok (by simp) done helsewhere
  rw [hrest] at houtcome
  exact congrArg Prod.fst houtcome

/-- A program that cannot be read breaks off in the line behind those that were read. -/
theorem programFrom_error {c : Cursor} (ts : List Token) :
    ∀ done f, (programFrom done [] ts).result = .error f → ts <:+ c.tokens →
      ∃ front own, ts = front ++ own ∧ WholeLines front ∧
        WithinLine own (programFrom done [] ts).rest ∧
        (programFrom done [] front).result =
          .ok (.program (done ++ (c.moveTo ts).readLines.lines)) := by
  fun_induction lines ts with
  | case1 =>
    intro done f h
    simp [programFrom] at h
  | case2 t ts reading g hline =>
    intro done f _ hsuffix
    have hline : (line (t :: ts)).result = .error g := hline
    obtain ⟨-, hrest⟩ := Prod.mk.inj (programFrom_of_error (by simp) done hline)
    rw [readLines_moveTo hsuffix (by simp), hline, hrest]
    exact ⟨[], t :: ts, rfl, by simp [WholeLines], withinLine_of_error hline, by simp [programFrom]⟩
  | case3 t ts reading first hline _ ih =>
    intro done f h hsuffix
    have hline : (line (t :: ts)).result = .ok first := hline
    obtain ⟨hresult, hrest⟩ := Prod.mk.inj (programFrom_of_ok (by simp) done hline)
    obtain ⟨front, own, hown, hwhole, hwithin, hfront⟩ :=
      ih (done ++ [first]) f (hresult.symm.trans h) ((suffix_line hline).trans hsuffix)
    have hleft : (line (t :: ts)).rest ≠ [] := by
      intro hnil
      rw [hnil, programFrom] at hresult
      cases hresult.symm.trans h
    obtain ⟨used, nl, hts, hused, hnl⟩ := exists_newline hline hleft
    rw [readLines_moveTo hsuffix (by simp), hline, hrest]
    refine ⟨used ++ nl :: front, own, ?_, hwhole.append hnl, hwithin, ?_⟩
    · rw [List.append_assoc, List.cons_append, ← hown]
      exact hts
    · rw [hts] at hline
      rw [programFrom_cons_line hused hnl hline, hfront]
      simp [reading, Progress.prepend]

/-- Reading line by line from one cursor gives the lines of the program, or fails as reading
    the program does, and leaves the cursor at the same place: at the end, or within the
    line that cannot be read, behind the lines that were read. -/
theorem program_eq_readLines (ts : List Token) :
    let start : Cursor := { tokens := ts }
    let read := start.readLines
    (program ts).result = read.result ∧
      (lines ts).map Reading.result = read.lines.map .ok ++ read.failure.toList.map .error ∧
      read.cursor = start.moveTo (program ts).rest ∧
      (read.failure = none → read.cursor.remaining = 0) ∧
      (read.failure ≠ none →
        ∃ front own, ts = front ++ own ∧ WholeLines front ∧ WithinLine own (program ts).rest ∧
          (program front).result = .ok (.program read.lines)) := by
  intro start read
  have hstart : start.moveTo ts = start := by simp [start, moveTo]
  have hsuffix : ts <:+ start.tokens := List.suffix_rfl
  obtain ⟨hresult, hcursor⟩ := programFrom_eq_readLines ts [] hsuffix
  have hresults := results_lines ts hsuffix
  rw [hstart] at hresult hcursor hresults
  refine ⟨hresult, hresults, hcursor, ?_, fun hsome => ?_⟩
  · exact remaining_readLines (by simp [start, remaining])
  · obtain ⟨f, hf⟩ := Option.ne_none_iff_exists'.mp hsome
    have herror : (programFrom [] [] ts).result = .error f := by
      rw [hresult, Progress.result]
      simp [Progress.prepend, read, hf]
    have hbroken := programFrom_error ts [] f herror hsuffix
    rwa [hstart] at hbroken

end Yolol.Parse

-- SUMMARY: A program is read again from its own source text, except for an empty last line.
import Yolol.Proofs.ProgramLines
import Yolol.Proofs.RoundTrip

/-!
# Round trip of programs

In source text a newline ends a line, and the last line needs none. A program is written
with a newline between each two of its lines, so the last line stands without one. Read
again, that line is found if it has a statement. An empty last line is lost, while empty
lines in front of it keep their places.
-/

namespace Yolol.Parse

open Token

/-! ## Lines that can be written -/

/-- A line whose source text spells it. -/
def WellWritten (l : Node) : Prop :=
  ∃ statements, l = .line statements ∧ l.Grammatical ∧ l.every Node.isScannable = true

theorem WellWritten.lexes {l : Node} (h : WellWritten l) :
    Lexes l.source.toList l.tokens := by
  obtain ⟨statements, rfl, hgrammatical, hscannable⟩ := h
  exact Node.lexes_line hgrammatical hscannable

/-- The line is found in its tokens, where these end. -/
theorem WellWritten.line_end {l : Node} (h : WellWritten l) {ts : List Token}
    (hts : ts.map bare = l.tokens) :
    (line ts).result = .ok l ∧ (line ts).rest = [] := by
  obtain ⟨statements, rfl, hgrammatical, -⟩ := h
  exact line_of_writes hgrammatical (writes_of_bare (Node.writes_tokens _) hts)

theorem WellWritten.lineOfSource {l : Node} (h : WellWritten l) :
    Parse.lineOfSource l.source = .ok l := by
  obtain ⟨ts, hscan, hts⟩ := scan_of_lexes h.lexes
  exact (lineOfSource_eq_ok hscan).mpr (h.line_end hts).1

/-- The line is found in its tokens, where a newline follows them. -/
theorem WellWritten.line_newline {l : Node} (h : WellWritten l) {ts : List Token}
    (hts : ts.map bare = l.tokens) {newline : Token} (hnewline : newline.kind = .newline)
    (more : List Token) :
    (line (ts ++ newline :: more)).result = .ok l ∧
      (line (ts ++ newline :: more)).rest = more := by
  obtain ⟨statements, rfl, hgrammatical, -⟩ := h
  have hwrites := writes_of_bare (Node.writes_tokens _) hts
  have hends : Ends (newline :: more) := .cons (by rw [hnewline]; rfl) more
  obtain ⟨hresult, hrest⟩ := (sequence_of_line hgrammatical hwrites hends).lineFrom []
  rw [line, hresult, hrest]
  simp [lineFrom, hnewline]

/-! ## Lines that a newline ends -/

/-- The source text of lines, each with a newline behind it. -/
def endedText (lines : List Node) : List Char := lines.flatMap fun l => l.source.toList ++ ['\n']

/-- The tokens of lines, each with that of a newline behind it. -/
def endedTokens (lines : List Node) : List Token := lines.flatMap fun l => l.tokens ++ [lineBreak]

theorem lexes_ended {lines : List Node} (hlines : ∀ l ∈ lines, WellWritten l) {cs : List Char}
    {ts : List Token} (h : Lexes cs ts) :
    Lexes (endedText lines ++ cs) (endedTokens lines ++ ts) := by
  induction lines with
  | nil => exact h
  | cons l lines ih =>
    obtain ⟨hline, hlines⟩ := List.forall_mem_cons.mp hlines
    simpa [endedText, endedTokens] using hline.lexes.append (ih hlines)

theorem source_concat (init : List Node) (last : Node) :
    (Node.program (init ++ [last])).source.toList = endedText init ++ last.source.toList := by
  rw [Node.source, Node.sources_eq_map, List.map_append]
  induction init with
  | nil => simp [endedText]
  | cons l init ih =>
    rw [List.map_cons, List.cons_append, String.intercalate_cons_of_ne_nil (by simp)]
    simpa [endedText] using ih

/-- Lines that a newline ends are read one after the other, and the program goes on behind
    them. -/
theorem programFrom_ended {lines : List Node} (hlines : ∀ l ∈ lines, WellWritten l)
    (done : List Node) {ts us : List Token} (hts : ts.map bare = endedTokens lines ++ us) :
    ∃ rest, rest.map bare = us ∧
      (programFrom done [] ts).result = (programFrom (done ++ lines) [] rest).result := by
  induction lines generalizing done ts with
  | nil => exact ⟨ts, hts, by simp⟩
  | cons l lines ih =>
    obtain ⟨hline, hlines⟩ := List.forall_mem_cons.mp hlines
    have hsplit : ts.map bare = l.tokens ++ lineBreak :: (endedTokens lines ++ us) := by
      simpa [endedTokens] using hts
    obtain ⟨first, tail, rfl, hfirst, htail⟩ := List.map_eq_append_iff.mp hsplit
    obtain ⟨newline, more, rfl, hnewline, hmore⟩ := List.map_eq_cons_iff.mp htail
    have hkind : newline.kind = .newline := congrArg Token.kind hnewline
    obtain ⟨hresult, hbehind⟩ := hline.line_newline hfirst hkind more
    obtain ⟨rest, hrest, hprogram⟩ := ih hlines (done ++ [l]) hmore
    refine ⟨rest, hrest, ?_⟩
    rw [line] at hresult hbehind
    rw [result_programFrom done [] _ (.inr (by simp)), hresult, hbehind]
    simpa using hprogram

/-! ## The last line -/

/-- The lines that are found again: all but an empty last one. -/
def keptLines (lines : List Node) : List Node :=
  if lines.getLast? = some (.line []) then lines.dropLast else lines

theorem keptLines_eq_self_iff (lines : List Node) :
    keptLines lines = lines ↔ lines.getLast? ≠ some (.line []) := by
  unfold keptLines
  split
  next hlast =>
    obtain ⟨init, rfl⟩ := List.getLast?_eq_some_iff.mp hlast
    simp
  next hlast => simp [hlast]

/-- The last line is found if it has a statement. -/
theorem programFrom_last {last : Node} (hlast : WellWritten last) (done : List Node)
    {ts : List Token} (hts : ts.map bare = last.tokens) :
    (programFrom done [] ts).result = .ok (.program (keptLines (done ++ [last]))) := by
  obtain ⟨hresult, hrest⟩ := hlast.line_end hts
  by_cases hempty : ts = []
  · subst hempty
    obtain rfl : Node.line [] = last := by simpa [line, lineFrom] using hresult
    simp [programFrom, keptLines]
  · have hne : last ≠ .line [] := by
      rintro rfl
      exact hempty (List.map_eq_nil_iff.mp hts)
    rw [line] at hresult hrest
    rw [result_programFrom done [] ts (.inr hempty), hresult, hrest]
    simp [programFrom, keptLines, hne]

/-! ## Programs -/

theorem programOfSource_source {lines : List Node} (hlines : ∀ l ∈ lines, WellWritten l) :
    programOfSource (Node.program lines).source = .ok (.program (keptLines lines)) := by
  rcases List.eq_nil_or_concat lines with rfl | ⟨init, last, rfl⟩
  · decide +kernel
  · rw [List.concat_eq_append] at *
    obtain ⟨hinit, hlast⟩ := List.forall_mem_append.mp hlines
    have hlast := hlast last List.mem_cons_self
    have hlexes : Lexes (Node.program (init ++ [last])).source.toList
        (endedTokens init ++ last.tokens) := by
      rw [source_concat]
      exact lexes_ended hinit hlast.lexes
    obtain ⟨ts, hscan, hts⟩ := scan_of_lexes hlexes
    obtain ⟨rest, hrest, hprogram⟩ := programFrom_ended hinit [] hts
    have hresult : (program ts).result = .ok (.program (keptLines (init ++ [last]))) := by
      rw [program, hprogram, List.nil_append]
      exact programFrom_last hlast init hrest
    rw [programOfSource, ofSource, hscan]
    simp only [hresult]

/-- A program that was read from source text is read again from its own source text, except
    that an empty last line is lost. -/
theorem program_readBack {source : String} {program : Node}
    (h : programOfSource source = .ok program) :
    ∃ lines, program = .program lines ∧
      programOfSource program.source = .ok (.program (keptLines lines)) ∧
        (programOfSource program.source = .ok program ↔ lines.getLast? ≠ some (.line [])) := by
  obtain ⟨lines, rfl, hspelled⟩ := lines_of_programOfSource h
  have hlines : ∀ l ∈ lines, WellWritten l := by
    intro l hl
    obtain ⟨i, hi⟩ := List.getElem?_of_mem hl
    obtain ⟨piece, -, hpiece⟩ := hspelled i l hi
    exact grammatical_of_lineOfSource hpiece
  have hagain := programOfSource_source hlines
  refine ⟨lines, rfl, hagain, ?_⟩
  rw [hagain, ← keptLines_eq_self_iff]
  simp

/-- An empty line in front, one in the middle, and one at the end. -/
def spacedSource : String := "\na = 1\n\ngoto a\n\n"

def spacedLines : List Node :=
  [.line [],
    .line [.assignment (.identifier ⟨"a", false⟩) .assign (.value (.number .one))],
    .line [],
    .line [.goto (.value (.identifier ⟨"a", false⟩))]]

theorem programOfSource_spacedSource :
    programOfSource spacedSource = .ok (.program (spacedLines ++ [.line []])) := by
  decide +kernel

theorem program_readBack_spacedSource :
    (Node.program (spacedLines ++ [.line []])).source = "\na = 1\n\ngoto a\n" ∧
      programOfSource (Node.program (spacedLines ++ [.line []])).source =
        .ok (.program spacedLines) := by
  obtain ⟨lines, hlines, hagain, -⟩ := program_readBack programOfSource_spacedSource
  cases hlines
  exact ⟨by decide +kernel, hagain⟩

/-- A program with an empty last line is not read again from its source text. -/
theorem empty_last_line_lost :
    ∃ program, programOfSource "a = 1\n\n" = .ok program ∧
      programOfSource program.source ≠ .ok program := by
  let assigned : Node :=
    .line [.assignment (.identifier ⟨"a", false⟩) .assign (.value (.number .one))]
  exact ⟨.program [assigned, .line []], by decide +kernel, by decide +kernel⟩

end Yolol.Parse

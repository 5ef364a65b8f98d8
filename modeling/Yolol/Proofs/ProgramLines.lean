-- SUMMARY: The lines of a program are those that the pieces of its text spell, one by one.
import Yolol.Proofs.LineLocality

/-!
# Lines of a program

The text of a program falls into pieces at its newlines. It spells a program exactly if
every piece spells a line, and the lines of the program are these, from the first on. Only
the last piece is special: it makes a line if there is a token in it, and none otherwise.
-/

namespace Yolol.Parse

open Token

/-! ## One line -/

theorem lineOfSource_eq_ok {source : String} {ts : List Token} {node : Node}
    (hscan : scan source = .ok ts) :
    lineOfSource source = .ok node ↔ (line ts).result = .ok node := by
  cases hline : (line ts).result <;> simp [lineOfSource, ofSource, hscan, hline]

/-- A line is read from the tokens of a program exactly if its own text spells it. -/
theorem line_iff_lineOfSource {cs : List Char} {us tail : List Token} {node : Node}
    (hlexes : Lexes cs (us.map bare)) (hcs : '\n' ∉ cs) (htail : EndsLine tail) :
    (line (us ++ tail)).result = .ok node ↔ lineOfSource (String.ofList cs) = .ok node := by
  have hinner : ∀ t ∈ us, t.kind ≠ .newline := fun t ht =>
    hlexes.no_newline hcs t.bare (List.mem_map_of_mem ht)
  have hlexes' : Lexes (String.ofList cs).toList (us.map bare) := by simpa using hlexes
  obtain ⟨vs, hscan, hvs⟩ := scan_of_lexes hlexes'
  have hsame : SameLine tail [] (us ++ tail) (vs ++ []) := sameLine_append hinner hvs.symm
  rw [List.append_nil] at hsame
  rw [lineOfSource_eq_ok hscan]
  constructor
  · intro h
    exact (lineFrom_elsewhere h htail (.inl rfl) vs hsame).1
  · intro h
    exact (lineFrom_elsewhere h (.inl rfl) htail _ hsame.symm).1

/-! ## Pieces and lines -/

/-- `SpellProgram pieces lines`: every piece spells its line, but the last one only if there
    is a token in it. -/
inductive SpellProgram : List String → List Node → Prop where
  | blank {last} (tokens : scan last = .ok []) : SpellProgram [last] []
  | last {last t ts line} (tokens : scan last = .ok (t :: ts))
      (spelled : lineOfSource last = .ok line) : SpellProgram [last] [line]
  | cons {piece pieces line lines} (spelled : lineOfSource piece = .ok line)
      (others : SpellProgram pieces lines) : SpellProgram (piece :: pieces) (line :: lines)

namespace SpellProgram

variable {pieces : List String} {lines : List Node}

theorem cons_iff {piece : String} (hne : pieces ≠ []) :
    SpellProgram (piece :: pieces) lines ↔
      ∃ line others, lineOfSource piece = .ok line ∧ SpellProgram pieces others ∧
        lines = line :: others := by
  constructor
  · intro h
    cases h with
    | blank | last => exact absurd rfl hne
    | cons hspelled hothers => exact ⟨_, _, hspelled, hothers, rfl⟩
  · rintro ⟨line, others, hspelled, hothers, rfl⟩
    exact .cons hspelled hothers

theorem singleton_iff {piece : String} {ts : List Token} (hscan : scan piece = .ok ts) :
    SpellProgram [piece] lines ↔
      (ts = [] ∧ lines = []) ∨ ts ≠ [] ∧ ∃ line, lineOfSource piece = .ok line ∧ lines = [line] := by
  constructor
  · intro h
    cases h with
    | blank htokens =>
      cases hscan.symm.trans htokens
      exact .inl ⟨rfl, rfl⟩
    | last htokens hspelled =>
      cases hscan.symm.trans htokens
      exact .inr ⟨by simp, _, hspelled, rfl⟩
    | cons _ hothers => cases hothers
  · rintro (⟨rfl, rfl⟩ | ⟨hne, line, hspelled, rfl⟩)
    · exact .blank hscan
    · obtain ⟨t, ts, rfl⟩ := List.exists_cons_of_ne_nil hne
      exact .last hscan hspelled

/-- Line by line, the pieces spell what stands in the program. -/
theorem getElem? (h : SpellProgram pieces lines) :
    ∀ (i : Nat) (line : Node), lines[i]? = some line →
      ∃ piece, pieces[i]? = some piece ∧ lineOfSource piece = .ok line := by
  induction h with
  | blank => simp
  | last _ hspelled =>
    intro i line hi
    obtain ⟨rfl, rfl⟩ : i = 0 ∧ _ = line := by simpa [List.getElem?_singleton] using hi
    exact ⟨_, rfl, hspelled⟩
  | cons hspelled _ ih =>
    intro i line hi
    cases i with
    | zero =>
      cases hi
      exact ⟨_, rfl, hspelled⟩
    | succ i => exact ih i line hi

/-- There is a line for every piece but the last, and one for the last if there is a token
    in it. -/
theorem length_eq (h : SpellProgram pieces lines) :
    ∃ last ts, pieces.getLast? = some last ∧ scan last = .ok ts ∧
      lines.length + 1 = pieces.length + if ts = [] then 0 else 1 := by
  induction h with
  | blank htokens => exact ⟨_, _, rfl, htokens, rfl⟩
  | last htokens _ => exact ⟨_, _, rfl, htokens, by simp⟩
  | @cons piece pieces line lines _ hothers ih =>
    obtain ⟨last, ts, hlast, hscan, hlength⟩ := ih
    refine ⟨last, ts, ?_, hscan, ?_⟩
    · cases pieces with
      | nil => cases hlast
      | cons => simpa using hlast
    · simp only [List.length_cons, hlength]
      omega

theorem scan_head {piece : String} (h : SpellProgram (piece :: pieces) lines) :
    ∃ ts, scan piece = .ok ts := by
  cases h with
  | blank htokens | last htokens => exact ⟨_, htokens⟩
  | cons hspelled =>
    obtain ⟨ts, hscan, -⟩ := ofSource_eq_ok hspelled
    exact ⟨ts, hscan⟩

/-- The tokens of the pieces, with newlines between them, are those of the whole text. -/
theorem lexes {texts : List (List Char)} (h : SpellProgram (texts.map String.ofList) lines) :
    ∃ ts, Lexes (['\n'].intercalate texts) ts := by
  have hscanned {text : List Char} {ts : List Token} (h : scan (String.ofList text) = .ok ts) :
      Lexes text (ts.map bare) := by simpa using lexes_of_scanFrom h
  induction texts generalizing lines with
  | nil => nomatch h
  | cons text texts ih =>
    obtain ⟨ts, hscan⟩ := h.scan_head
    cases texts with
    | nil => exact ⟨_, by simpa using hscanned hscan⟩
    | cons next texts =>
      obtain ⟨_, _, -, hothers, -⟩ := (cons_iff (by simp)).mp h
      obtain ⟨us, hus⟩ := ih hothers
      exact ⟨_, by simpa [List.intercalate] using (hscanned hscan).append hus⟩

end SpellProgram

/-! ## Source text -/

/-- A line is read from the tokens of a text exactly if its piece spells it, and then what
    stands behind its newline follows. -/
theorem programFrom_iff_first {done : List Node} {cs : List Char} {us tail : List Token}
    {node : Node} (hus : Lexes cs (us.map bare)) (hcs : '\n' ∉ cs) (htail : EndsLine tail)
    (hne : us ++ tail ≠ []) :
    (programFrom done [] (us ++ tail)).result = .ok node ↔
      ∃ first, lineOfSource (String.ofList cs) = .ok first ∧
        (programFrom (done ++ [first]) [] tail.tail).result = .ok node := by
  have hinner : ∀ t ∈ us, t.kind ≠ .newline := fun t ht =>
    hus.no_newline hcs t.bare (List.mem_map_of_mem ht)
  have hline {first : Node} : (line (us ++ tail)).result = .ok first ↔
      lineOfSource (String.ofList cs) = .ok first :=
    line_iff_lineOfSource hus hcs htail
  rw [result_programFrom done [] _ (.inr hne)]
  cases hfirst : (lineFrom [] (us ++ tail)).result with
  | error f =>
    have hnone {first : Node} : lineOfSource (String.ofList cs) ≠ .ok first := fun h => by
      cases hfirst.symm.trans (hline.mpr h)
    simp [hnone]
  | ok first => simp [rest_lineFrom hinner htail hfirst, hline.mp hfirst]

/-- The last line of a text is read from its tokens exactly if its piece spells it. -/
theorem programFrom_iff_last {done : List Node} {cs : List Char} {ts : List Token} {node : Node}
    (hlexes : Lexes cs (ts.map bare)) (hcs : '\n' ∉ cs) :
    (programFrom done [] ts).result = .ok node ↔
      ∃ lines, node = .program (done ++ lines) ∧ SpellProgram [String.ofList cs] lines := by
  have hlexes' : Lexes (String.ofList cs).toList (ts.map bare) := by simpa using hlexes
  obtain ⟨vs, hscan, hvs⟩ := scan_of_lexes hlexes'
  have hempty : vs = [] ↔ ts = [] := by
    rw [← List.map_eq_nil_iff (f := bare), hvs, List.map_eq_nil_iff]
  simp only [SpellProgram.singleton_iff hscan, ne_eq, hempty]
  by_cases hts : ts = []
  · simp [hts, programFrom, eq_comm]
  · have hfirst := @programFrom_iff_first done cs ts [] node hlexes hcs (.inl rfl) (by simpa)
    rw [List.append_nil] at hfirst
    simp [hfirst, hts, programFrom, and_comm, eq_comm]

/-- The tokens of a text make a program exactly if its pieces spell one. -/
theorem programFrom_iff_spellProgram {done : List Node} {cs : List Char} {ts : List Token}
    {node : Node} (hlexes : Lexes cs (ts.map bare)) :
    (programFrom done [] ts).result = .ok node ↔
      ∃ lines, node = .program (done ++ lines) ∧
        SpellProgram ((cs.splitOn '\n').map String.ofList) lines := by
  -- The text behind a newline is shorter, so the induction is on its length.
  induction hn : cs.length using Nat.strongRecOn generalizing done cs ts with
  | ind n ih =>
    by_cases hcs : '\n' ∈ cs
    · obtain ⟨piece, ds, rfl, hpiece⟩ := List.eq_append_cons_of_mem hcs
      obtain ⟨us, vs, hts, hus, hvs⟩ := hlexes.append_inv
      obtain ⟨us, tail, rfl, rfl, htail⟩ := List.map_eq_append_iff.mp hts
      obtain ⟨t, rest, rfl, ht, rfl⟩ := List.map_eq_cons_iff.mp htail
      have hkind : t.kind = .newline := congrArg Token.kind ht
      have hends : EndsLine (t :: rest) := .inr (congrArg some hkind)
      have hshorter : ds.length < n := by
        simp only [← hn, List.length_append, List.length_cons]
        omega
      have hne : (ds.splitOn '\n').map String.ofList ≠ [] := by simp
      rw [programFrom_iff_first hus hpiece hends (by simp), List.splitOn_append_cons_self_of_not_mem hpiece,
        List.map_cons]
      simp only [SpellProgram.cons_iff hne, List.tail_cons, ih _ hshorter hvs rfl]
      constructor
      · rintro ⟨first, hfirst, lines, rfl, hlines⟩
        exact ⟨first :: lines, by simp, first, lines, hfirst, hlines, rfl⟩
      · rintro ⟨_, rfl, first, lines, hfirst, hlines, rfl⟩
        exact ⟨first, hfirst, lines, by simp, hlines⟩
    · rw [List.splitOn_eq_singleton hcs, List.map_singleton]
      exact programFrom_iff_last hlexes hcs

/-- Source text spells a program exactly if its pieces do. -/
theorem programOfSource_iff {source : String} {program : Node} :
    programOfSource source = .ok program ↔
      ∃ lines, program = .program lines ∧ SpellProgram (pieces source) lines := by
  constructor
  · intro h
    obtain ⟨ts, hscan, hprogram⟩ := ofSource_eq_ok h
    exact (programFrom_iff_spellProgram (lexes_of_scanFrom hscan)).mp hprogram
  · rintro ⟨lines, rfl, hlines⟩
    obtain ⟨ts, hlexes⟩ := hlines.lexes
    rw [List.intercalate_splitOn] at hlexes
    obtain ⟨us, hscan, rfl⟩ := scan_of_lexes hlexes
    have hprogram : (Parse.program us).result = .ok (.program lines) :=
      (programFrom_iff_spellProgram hlexes).mpr ⟨lines, rfl, hlines⟩
    rw [programOfSource, ofSource, hscan]
    simp only [hprogram]

/-- The lines of the program that source text spells are spelled by its pieces, from the
    first on. -/
theorem lines_of_programOfSource {source : String} {program : Node}
    (h : programOfSource source = .ok program) :
    ∃ lines, program = .program lines ∧
      ∀ (i : Nat) (line : Node), lines[i]? = some line →
        ∃ piece, (pieces source)[i]? = some piece ∧ lineOfSource piece = .ok line := by
  obtain ⟨lines, rfl, hlines⟩ := programOfSource_iff.mp h
  exact ⟨lines, rfl, hlines.getElem?⟩

theorem pieces_append_newline {first : String} (hfirst : '\n' ∉ first.toList) (others : String) :
    pieces (first ++ "\n" ++ others) = first :: pieces others := by
  have hchars : (first ++ "\n" ++ others).toList = first.toList ++ '\n' :: others.toList := by simp
  rw [pieces, hchars, List.splitOn_append_cons_self_of_not_mem hfirst]
  simp [pieces]

theorem length_pieces (source : String) :
    (pieces source).length = source.toList.count '\n' + 1 := by
  rw [pieces, List.length_map]
  induction source.toList with
  | nil => rfl
  | cons c cs ih =>
    rw [List.splitOn_cons_eq_if_modifyHead, List.count_cons]
    split <;> simp [ih]

/-- A line stands alone: a text that starts with one spells a program exactly if the line
    spells a line and what follows spells a program, and then it is put in front. So every
    line is that of its own piece of the text, and there are as many as newlines, and one
    more if there is a token behind the last of them. -/
theorem lines_stand_alone :
    (∀ first others : String, '\n' ∉ first.toList →
      ∀ program, programOfSource (first ++ "\n" ++ others) = .ok program ↔
        ∃ line lines, lineOfSource first = .ok line ∧
          programOfSource others = .ok (.program lines) ∧ program = .program (line :: lines)) ∧
    ∀ (source : String) (program : Node), programOfSource source = .ok program →
      ∃ lines, program = .program lines ∧
        (∀ (i : Nat) (line : Node), lines[i]? = some line →
          ∃ piece, (pieces source)[i]? = some piece ∧ lineOfSource piece = .ok line) ∧
        ∃ last ts, (pieces source).getLast? = some last ∧ scan last = .ok ts ∧
          lines.length = source.toList.count '\n' + if ts = [] then 0 else 1 := by
  refine ⟨fun first others hfirst program => ?_, fun source program h => ?_⟩
  · rw [programOfSource_iff, pieces_append_newline hfirst]
    have hne : pieces others ≠ [] := by simp [pieces]
    simp only [SpellProgram.cons_iff hne, programOfSource_iff, Node.program.injEq]
    constructor
    · rintro ⟨_, rfl, line, lines, hline, hlines, rfl⟩
      exact ⟨line, lines, hline, ⟨lines, rfl, hlines⟩, rfl⟩
    · rintro ⟨line, lines, hline, ⟨_, rfl, hlines⟩, rfl⟩
      exact ⟨_, rfl, line, lines, hline, hlines, rfl⟩
  · obtain ⟨lines, rfl, hlines⟩ := programOfSource_iff.mp h
    obtain ⟨last, ts, hlast, hscan, hlength⟩ := hlines.length_eq
    rw [length_pieces] at hlength
    exact ⟨lines, rfl, hlines.getElem?, last, ts, hlast, hscan, by omega⟩

/-- An assignment and a comment that has a quote in it, nothing, and a jump. -/
def quotedLines : List Node :=
  [.line
      [.assignment (.identifier ⟨"a", false⟩) .assign (.value (.text "b")), .comment " \"c"],
    .line [],
    .line [.goto (.value (.number .one))]]

/-- A comment ends at its newline, and an assignment does not find its value behind one. -/
theorem lines_stand_alone_quotedLines :
    programOfSource ("a = \"b\" // \"c" ++ "\n" ++ "\ngoto 1 ") = .ok (.program quotedLines) ∧
      (∃ piece, (pieces "a = \"b\" // \"c\n\ngoto 1 ")[2]? = some piece ∧
        lineOfSource piece = .ok (.line [.goto (.value (.number .one))])) ∧
      ∀ program, programOfSource ("a =" ++ "\n" ++ "b") ≠ .ok program := by
  have hlines : programOfSource ("a = \"b\" // \"c" ++ "\n" ++ "\ngoto 1 ") =
      .ok (.program quotedLines) :=
    (lines_stand_alone.1 _ _ (by decide) _).mpr
      ⟨_, _, by decide +kernel, by decide +kernel, rfl⟩
  refine ⟨hlines, ?_, fun program h => ?_⟩
  · obtain ⟨_, heq, hpieces, -⟩ := lines_stand_alone.2 _ _ hlines
    cases heq
    exact hpieces 2 _ rfl
  · obtain ⟨line, _, hfailed, -⟩ := (lines_stand_alone.1 "a =" "b" (by decide) program).mp h
    have hnone : (lineOfSource "a =").toOption = none := by decide +kernel
    simp [hfailed, Except.toOption] at hnone

end Yolol.Parse

-- SUMMARY: Text as tokens and the separators between them: scanning loses none, and undoes writing.
import Mathlib.Data.List.DropRight
import Yolol.Proofs.Lexemes

/-!
# Layout

A text is laid out as lexemes with separators around them. Scanning finds such a layout in
every text that it accepts: nothing else is left out, and each lexeme is the longest that
starts at its place. The other way round, tokens that are written with separators between
them are scanned as the same tokens, because no lexeme can go on into a separator.
-/

namespace Yolol.Token

/-! ## Pieces -/

/-- A token with one of its lexemes and the separators that follow it. -/
structure Piece where
  token : Token
  lexeme : List Char
  gap : List Char
  written : token.WrittenAs lexeme
  blank : gap.all isSeparator = true

/-- The text of pieces, one behind the other. -/
def layout (ps : List Piece) : List Char := ps.flatMap fun p => p.lexeme ++ p.gap

theorem layout_cons (p : Piece) (ps : List Piece) :
    layout (p :: ps) = p.lexeme ++ (p.gap ++ layout ps) := by
  simp [layout]

/-- The place behind `front`, which starts the text. -/
def Position.behind (front : List Char) : Position :=
  ⟨1 + front.count '\n', 1 + (front.rtakeWhile (· != '\n')).length⟩

theorem Position.next_behind (front : List Char) (c : Char) :
    (behind front).next c = behind (front ++ [c]) := by
  by_cases hc : c = '\n'
  · subst hc
    have hlast : (front ++ ['\n']).rtakeWhile (· != '\n') = [] :=
      List.rtakeWhile_concat_neg _ _ _ (by decide)
    simp [next, behind, hlast, Nat.add_assoc]
  · have hlast : (front ++ [c]).rtakeWhile (· != '\n') =
        front.rtakeWhile (· != '\n') ++ [c] :=
      List.rtakeWhile_concat_pos _ _ _ (by simpa using hc)
    simp [next, behind, hc, hlast, Nat.add_assoc]

theorem Position.after_behind (front cs : List Char) :
    (behind front).after cs = behind (front ++ cs) := by
  induction cs generalizing front with
  | nil => rw [List.append_nil]; rfl
  | cons c cs ih =>
    have hstep := ih (front ++ [c])
    rw [List.append_assoc] at hstep
    rw [after, List.foldl_cons, next_behind]
    exact hstep

/-! ## What scanning finds -/

/-- How a piece stands behind `front` when `rest` follows its lexeme. -/
structure Piece.Stands (p : Piece) (front rest : List Char) : Prop where
  place : p.token.position = .behind front
  /-- The lexeme determines the kind and the text of the token. -/
  determined : ∀ u, WrittenAs u p.lexeme → u.bare = p.token.bare
  /-- No lexeme that starts here is longer, be it a name, a reserved word or any other. -/
  longest : ∀ u x, WrittenAs u x → x <+: p.lexeme ++ rest → x.length ≤ p.lexeme.length
  slash : p.token.kind = .slash → rest.head? ≠ some '/'
  keyword : isNameShaped p.lexeme = true → ∀ r ∈ reserved,
    (p.token.kind = r.2 ↔ ':' ∉ p.lexeme ∧ p.lexeme.map foldCase = r.1.toList)

/-- A piece stands where its lexeme is taken. -/
theorem Piece.stands_of_lexeme? {p : Piece} {c : Char} {cs front : List Char} {l : Lexeme}
    (hlexeme : lexeme? c cs = some l) (hp : p.lexeme = c :: cs.take l.more)
    (hplace : p.token.position = .behind front) : p.Stands front (cs.drop l.more) := by
  have htext : p.lexeme ++ cs.drop l.more = c :: cs := by simp [hp]
  have hlength : p.lexeme.length = l.more + 1 := by
    simp [hp, more_le_of_lexeme? hlexeme]
  have hlongest : ∀ u x, WrittenAs u x → x <+: p.lexeme ++ cs.drop l.more →
      x.length ≤ p.lexeme.length := by
    rintro u x hx ⟨rest, hrest⟩
    rw [hlength]
    exact hx.length_le (hrest.trans htext).symm hlexeme
  refine ⟨hplace, fun u hu => p.written.bare_eq hu, hlongest, fun hslash hnext => ?_,
    fun hx r hr => p.written.kind_eq_reserved_iff hx hr⟩
  -- Two slashes would start a comment, which is longer.
  have hone := p.written.slash_inv hslash
  obtain ⟨rest, hrest⟩ := List.head?_eq_some_iff.mp hnext
  have hcomment := hlongest _ _ (WrittenAs.comment (s := []) (p := ⟨0, 0⟩) rfl)
    ⟨rest, by simp [hone, hrest]⟩
  rw [hone] at hcomment
  exact absurd hcomment (by decide)

/-- Text that is scanned from behind `front` on is laid out as its tokens. -/
theorem layout_of_scanFrom {front cs : List Char} {ts : List Token}
    (h : scanFrom (.behind front) cs = .ok ts) :
    ∃ lead ps, lead.all isSeparator = true ∧ cs = lead ++ layout ps ∧ ps.map Piece.token = ts ∧
      ∀ before p after, ps = before ++ p :: after →
        p.Stands (front ++ lead ++ layout before) (p.gap ++ layout after) := by
  generalize hplace : Position.behind front = place at h
  fun_induction scanFrom place cs generalizing front ts with
  | case1 =>
    cases h
    exact ⟨[], [], rfl, rfl, rfl, by simp⟩
  | case2 => cases h
  | case3 => cases h
  | case4 place c cs l hlexeme us hscan ih =>
    cases h
    subst hplace
    obtain ⟨lead, ps, hlead, htext, htokens, hstands⟩ :=
      ih (Position.after_behind front _).symm hscan
    rcases writtenAs_of_lexeme? hlexeme with ⟨hc, rfl⟩ | ⟨kind, text, htoken, hwritten⟩
    · -- A separator joins those in front of the first token.
      refine ⟨c :: lead, ps, by simp [hc, hlead], congrArg (c :: ·) htext, htokens, ?_⟩
      simpa using hstands
    · let p : Piece := ⟨_, _, lead, hwritten (.behind front), hlead⟩
      have hp : p.Stands front (lead ++ layout ps) := htext ▸ p.stands_of_lexeme? hlexeme rfl rfl
      refine ⟨[], p :: ps, rfl, ?_, ?_, ?_⟩
      · rw [List.nil_append, layout_cons, ← htext]
        simp [p]
      · simp [p, Lexeme.tokens, htoken, htokens]
      · rintro (_ | ⟨q, before⟩) r after hsplit
        · obtain ⟨rfl, rfl⟩ := List.cons.inj hsplit
          simpa [layout] using hp
        · obtain ⟨rfl, rfl⟩ := List.cons.inj hsplit
          simpa [layout_cons, p] using hstands before r after rfl

/-- Scanned text is its tokens' lexemes with nothing but separators around them, and each
    lexeme is the longest at its place. -/
theorem scan_lossless {source : String} {ts : List Token} (h : scan source = .ok ts) :
    ∃ lead ps, lead.all isSeparator = true ∧ source.toList = lead ++ layout ps ∧
      ps.map Piece.token = ts ∧
      ∀ before p after, ps = before ++ p :: after →
        p.Stands (lead ++ layout before) (p.gap ++ layout after) := by
  have hscan : scanFrom (.behind []) source.toList = .ok ts := h
  exact layout_of_scanFrom hscan

/-- Text with a reserved word, a name that is none for its colon, a string with slashes in it,
    and a comment at the end of a line. -/
def oddText : String := " ıF:if\t\"//\"/ 1.5_//\r/\n\rendo"

def oddTokens : List Token :=
  [⟨.ifWord, none, ⟨1, 2⟩, none⟩, ⟨.identifier, some ":if", ⟨1, 4⟩, none⟩,
   ⟨.string, some "//", ⟨1, 8⟩, none⟩, ⟨.slash, none, ⟨1, 12⟩, none⟩,
   ⟨.number, some "1.5", ⟨1, 14⟩, none⟩, ⟨.identifier, some "_", ⟨1, 17⟩, none⟩,
   ⟨.comment, some "\r/", ⟨1, 18⟩, none⟩, ⟨.newline, none, ⟨1, 22⟩, none⟩,
   ⟨.identifier, some "endo", ⟨2, 2⟩, none⟩]

theorem scan_oddText : scan oddText = .ok oddTokens := by
  have hread : (scan oddText).toOption = some oddTokens := by decide +kernel
  cases hscan : scan oddText with
  | error f => simp [hscan, Except.toOption] at hread
  | ok ts => simpa [hscan, Except.toOption] using hread

theorem scan_lossless_oddText :
    ∃ lead ps, lead.all isSeparator = true ∧ oddText.toList = lead ++ layout ps ∧
      ps.map Piece.token = oddTokens ∧
      ∀ before p after, ps = before ++ p :: after →
        p.Stands (lead ++ layout before) (p.gap ++ layout after) :=
  scan_lossless scan_oddText

/-! ## What scanning undoes -/

/-- Separators stand between pieces, but none behind a comment, to which they would belong. -/
structure Spaced (ps : List Piece) : Prop where
  comments : ∀ p ∈ ps, p.token.kind = .comment → p.gap = []
  apart : ∀ p ∈ ps.dropLast, p.token.kind ≠ .comment → p.gap ≠ []

theorem Spaced.tail {p : Piece} {ps : List Piece} (h : Spaced (p :: ps)) : Spaced ps := by
  refine ⟨fun q hq => h.comments q (.tail _ hq), fun q hq => h.apart q ?_⟩
  cases ps with
  | nil => cases hq
  | cons r ps => exact .tail _ hq

theorem Spaced.cons {p : Piece} {ps : List Piece}
    (hcomment : p.token.kind = .comment → p.gap = [])
    (hapart : p.token.kind ≠ .comment → p.gap ≠ []) (h : Spaced ps) : Spaced (p :: ps) := by
  refine ⟨List.forall_mem_cons.mpr ⟨hcomment, h.comments⟩, fun q hq => ?_⟩
  cases ps with
  | nil => cases hq
  | cons r ps =>
    rcases List.mem_cons.mp hq with rfl | hq
    · exact hapart
    · exact h.apart q hq

theorem Lexes.blank {gap cs : List Char} {ts : List Token} (hgap : gap.all isSeparator = true)
    (h : Lexes cs ts) : Lexes (gap ++ cs) ts := by
  induction gap with
  | nil => exact h
  | cons c gap ih =>
    obtain ⟨hc, hgap⟩ : isSeparator c = true ∧ gap.all isSeparator = true := by
      simpa using hgap
    exact .cons (lexeme?_separator hc (gap ++ cs)) (ih hgap)

/-- No word or number goes on with a separator, and no slash becomes a comment. -/
theorem isSeparator_parts {c : Char} (h : isSeparator c = true) :
    isWordChar c = false ∧ c ≠ '.' ∧ c ≠ '/' := by
  have hcases : c = ' ' ∨ c = '\t' ∨ c = '\r' := by
    simpa [isSeparator, or_assoc] using h
  rcases hcases with rfl | rfl | rfl <;> decide

theorem stops_of_blank {t : Token} (ht : t.kind ≠ .comment) {gap rest : List Char}
    (hgap : gap.all isSeparator = true) (hrest : gap = [] → rest = []) :
    Stops t (gap ++ rest) := by
  rw [Stops, if_neg ht]
  cases gap with
  | nil =>
    rw [hrest rfl]
    exact (Stops.nil t).parted ht
  | cons c gap =>
    have hc : isSeparator c = true := List.all_eq_true.mp hgap c List.mem_cons_self
    obtain ⟨hword, hpoint, hslash⟩ := isSeparator_parts hc
    refine ⟨fun d hd => ?_, by simpa using hslash⟩
    cases hd
    exact ⟨hword, hpoint⟩

/-- The lexeme of the first piece ends where its gap begins. -/
theorem Spaced.stops {p : Piece} {ps : List Piece} (h : Spaced (p :: ps))
    (hcomment : p.token.kind = .comment → EndsLine (ps.map Piece.token)) :
    Stops p.token (p.gap ++ layout ps) := by
  by_cases hp : p.token.kind = .comment
  · rw [h.comments p List.mem_cons_self hp, List.nil_append, Stops, if_pos hp]
    cases ps with
    | nil => exact .inl rfl
    | cons q ps =>
      have hkind : q.token.kind = .newline := by simpa [EndsLine] using hcomment hp
      rw [layout_cons, q.written.newline_inv hkind]
      exact .inr rfl
  · refine stops_of_blank hp p.blank fun hgap => ?_
    cases ps with
    | nil => rfl
    | cons q ps => exact absurd hgap (h.apart p List.mem_cons_self hp)

theorem lexes_layout {ps : List Piece} (hcomments : CommentsEndLines (ps.map Piece.token))
    (hspaced : Spaced ps) : Lexes (layout ps) ((ps.map Piece.token).map bare) := by
  induction ps with
  | nil => exact .nil
  | cons p ps ih =>
    have hnext := (ih hcomments.2 hspaced.tail).blank p.blank
    rw [layout_cons]
    exact p.written.lexes (hspaced.stops hcomments.1) hnext

/-- Tokens of the right shapes can be written with a space between neighbours. -/
theorem exists_spaced {ts : List Token} (h : ∀ t ∈ ts, t.isLexical = true) :
    ∃ ps, ps.map Piece.token = ts ∧ Spaced ps := by
  induction ts with
  | nil => exact ⟨[], rfl, by simp, by simp⟩
  | cons t ts ih =>
    obtain ⟨ht, hts⟩ := List.forall_mem_cons.mp h
    obtain ⟨x, hx⟩ := exists_writtenAs ht
    obtain ⟨ps, rfl, hps⟩ := ih hts
    by_cases hcomment : t.kind = .comment
    · exact ⟨⟨t, x, [], hx, rfl⟩ :: ps, rfl, hps.cons (fun _ => rfl) (absurd hcomment)⟩
    · exact ⟨⟨t, x, [' '], hx, rfl⟩ :: ps, rfl, hps.cons (absurd · hcomment) (by simp)⟩

/-- Tokens written out with separators between them are scanned as the same tokens. -/
theorem scan_undoes_layout {ts : List Token} (hlexical : ∀ t ∈ ts, t.isLexical = true)
    (hcomments : CommentsEndLines ts) :
    (∃ ps, ps.map Piece.token = ts ∧ Spaced ps) ∧
      ∀ lead ps, lead.all isSeparator = true → ps.map Piece.token = ts → Spaced ps →
        ∃ us, scan (String.ofList (lead ++ layout ps)) = .ok us ∧ us.map bare = ts.map bare := by
  refine ⟨exists_spaced hlexical, ?_⟩
  rintro lead ps hlead rfl hspaced
  have hlexes := (lexes_layout hcomments hspaced).blank hlead
  rw [← String.toList_ofList (l := lead ++ layout ps)] at hlexes
  exact scan_of_lexes hlexes

def oddPieces : List Piece :=
  [⟨{ kind := .ifWord }, ['ı', 'F'], ['\t', ' '], .word (by decide), rfl⟩,
   ⟨{ kind := .identifier, text := some ":if" }, _, ['\r'], .name (x := [':', 'i', 'f']) rfl, rfl⟩,
   ⟨{ kind := .slash }, ['/'], [' '], .mark rfl, rfl⟩,
   ⟨{ kind := .comment, text := some "\t" }, _, [], .comment (s := ['\t']) rfl, rfl⟩,
   ⟨{ kind := .newline }, ['\n'], [' '], .newline, rfl⟩,
   ⟨{ kind := .number, text := some "1.5" }, _, [], .number (x := ['1', '.', '5']) rfl, rfl⟩]

theorem scan_undoes_layout_oddPieces :
    Spaced oddPieces ∧
      ∃ us, scan (String.ofList ([' '] ++ layout oddPieces)) = .ok us ∧
        us.map bare = (oddPieces.map Piece.token).map bare := by
  have hspaced : Spaced oddPieces := ⟨by simp [oddPieces], by simp [oddPieces]⟩
  have hcomments : CommentsEndLines (oddPieces.map Piece.token) := by
    simp [oddPieces, CommentsEndLines, EndsLine]
  exact ⟨hspaced,
    (scan_undoes_layout (by decide) hcomments).2 [' '] oddPieces rfl rfl hspaced⟩

end Yolol.Token

-- SUMMARY: Scanning fails exactly where lexing comes to a character that starts nothing.
import Yolol.Proofs.Layout

/-!
# Lex faults

Taking the longest lexeme at every place leads through a text along one path. Scanning fails
if and only if that path comes to a character at which no separator stands and no lexeme of
any token starts: a quote that is not closed on its line, a colon without a word behind it, or
a character that starts no lexeme at all. What stands in front of that place has tokens.
-/

namespace Yolol.Token

-- ---------------------------------------------------------------------------
-- Characters without a lexeme
-- ---------------------------------------------------------------------------

/-- A string ends at the next quote, if that stands on its line. -/
theorem getElem?_eq_quote_iff (cs : List Char) :
    cs[(cs.takeWhile fun d => d != '\x22' && d != '\n').length]? = some '\x22' ↔
      '\x22' ∈ cs.takeWhile (· != '\n') := by
  induction cs with
  | nil => simp
  | cons d cs ih =>
    by_cases hquote : d = '\x22'
    · simp [hquote]
    · by_cases hline : d = '\n'
      · simp [hline]
      · simp [hquote, hline, Ne.symm hquote, ih]

theorem lexeme?_quote_eq_none_iff (cs : List Char) :
    lexeme? '\x22' cs = none ↔ '\x22' ∉ cs.takeWhile (· != '\n') := by
  rw [← getElem?_eq_quote_iff, lexeme?, if_neg (by decide), if_neg (by decide), if_neg (by simp),
    if_pos rfl]
  simp

theorem lexeme?_colon_eq_none_iff (cs : List Char) :
    lexeme? ':' cs = none ↔ cs.head?.any isWordStart = false := by
  rw [lexeme?, if_neg (by decide), if_neg (by decide), if_neg (by simp), if_neg (by decide),
    if_neg (by decide), if_neg (by decide), if_pos rfl]
  simp

/-- A character that some separator or some lexeme starts with. -/
def isOpener (c : Char) : Bool :=
  isSeparator c || c == '\n' || c == '\x22' || c == ':' || isNumeral c || isWordStart c ||
    (punctuation? c).isSome

/-- Other characters start a lexeme always or never. -/
theorem lexeme?_eq_none_iff_of_ne {c : Char} (hquote : c ≠ '\x22') (hcolon : c ≠ ':')
    (cs : List Char) : lexeme? c cs = none ↔ isOpener c = false := by
  unfold lexeme? isOpener
  split
  · simp_all
  split
  · simp_all
  split
  · next hslash => simp [hslash.1, punctuation?]
  split
  · simp_all
  split
  · simp only
    split <;> simp_all
  · simp_all

theorem lexeme?_eq_none_iff {c : Char} {cs : List Char} :
    lexeme? c cs = none ↔
      (c = '\x22' ∧ '\x22' ∉ cs.takeWhile (· != '\n')) ∨
        (c = ':' ∧ cs.head?.any isWordStart = false) ∨ isOpener c = false := by
  by_cases hquote : c = '\x22'
  · subst hquote
    have hopener : isOpener '\x22' = true := rfl
    simp [lexeme?_quote_eq_none_iff, hopener]
  · by_cases hcolon : c = ':'
    · subst hcolon
      have hopener : isOpener ':' = true := rfl
      simp [lexeme?_colon_eq_none_iff, hopener]
    · simp [lexeme?_eq_none_iff_of_ne hquote hcolon, hquote, hcolon]

/-- Where no lexeme starts, none starts if the text ends earlier. -/
theorem lexeme?_eq_none_of_append {c : Char} {cs ds : List Char}
    (h : lexeme? c (cs ++ ds) = none) : lexeme? c cs = none := by
  rw [lexeme?_eq_none_iff] at h ⊢
  rcases h with ⟨hquote, hopen⟩ | ⟨hcolon, hhead⟩ | hopener
  · refine .inl ⟨hquote, fun hmem => hopen ?_⟩
    rw [List.takeWhile_append]
    split
    · exact List.mem_append_left _ ((List.takeWhile_prefix _).subset hmem)
    · exact hmem
  · refine .inr (.inl ⟨hcolon, ?_⟩)
    cases cs with
    | nil => rfl
    | cons d cs => exact hhead
  · exact .inr (.inr hopener)

-- ---------------------------------------------------------------------------
-- Lexemes of tokens
-- ---------------------------------------------------------------------------

/-- A lexeme is taken as a whole if nothing follows it. -/
theorem WrittenAs.lexeme?_self {t : Token} {x : List Char} (h : t.WrittenAs x) :
    ∃ c cs, x = c :: cs ∧ lexeme? c cs = some ⟨some (t.kind, t.text), cs.length⟩ := by
  have hlexes := h.lexes (Stops.nil t) .nil
  rw [List.append_nil] at hlexes
  generalize hts : [t.bare] = ts at hlexes
  cases hlexes with
  | nil => cases hts
  | @cons c cs l ts hlexeme hnext =>
    have hall : l.more = cs.length := by
      have hsplit : c :: cs = c :: cs ++ [] := (List.append_nil _).symm
      have hlength := h.length_le hsplit hlexeme
      have hmore := more_le_of_lexeme? hlexeme
      simp only [List.length_cons] at hlength
      omega
    rw [hall, List.drop_length] at hnext
    cases hnext
    obtain ⟨token, more⟩ := l
    obtain rfl : more = cs.length := hall
    rw [List.append_nil] at hts
    unfold Lexeme.tokens at hts
    split at hts
    · cases hts
    · next kind text htoken =>
      obtain rfl : token = some (kind, text) := htoken
      have hsame := (List.cons.inj hts).1
      have hkind : t.kind = kind := congrArg Token.kind hsame
      have htext : t.text = text := congrArg Token.text hsame
      exact ⟨c, cs, rfl, by rw [hlexeme, hkind, htext]⟩

/-- A character starts no lexeme exactly if no token has one that starts with it. -/
theorem isOpener_eq_false_iff {c : Char} :
    isOpener c = false ↔
      isSeparator c = false ∧ ∀ t x, WrittenAs t x → x.head? ≠ some c := by
  constructor
  · intro h
    refine ⟨?_, fun t x hx hhead => ?_⟩
    · simp only [isOpener, Bool.or_eq_false_iff] at h
      exact h.1.1.1.1.1.1
    · obtain ⟨d, cs, rfl, hself⟩ := hx.lexeme?_self
      obtain rfl : d = c := Option.some.inj hhead
      simp [lexeme?_eq_none_iff.mpr (.inr (.inr h))] at hself
  · rintro ⟨hseparator, hnone⟩
    by_contra hopener
    have hlexeme : ∃ cs, lexeme? c cs ≠ none := by
      by_cases hquote : c = '\x22'
      · exact ⟨['\x22'], by simp [hquote, lexeme?_quote_eq_none_iff]⟩
      · by_cases hcolon : c = ':'
        · exact ⟨['_'], by simp [hcolon, lexeme?_colon_eq_none_iff, isWordStart]⟩
        · exact ⟨[], mt (lexeme?_eq_none_iff_of_ne hquote hcolon []).mp hopener⟩
    obtain ⟨cs, hlexeme⟩ := hlexeme
    obtain ⟨l, hlexeme⟩ := Option.ne_none_iff_exists'.mp hlexeme
    rcases writtenAs_of_lexeme? hlexeme with ⟨hc, -⟩ | ⟨kind, text, -, hwritten⟩
    · simp [hseparator] at hc
    · exact hnone _ _ (hwritten ⟨0, 0⟩) rfl

/-- Neither a separator nor a lexeme of any token starts here. -/
structure StartsNothing (cs : List Char) : Prop where
  noSeparator : ∀ c, cs.head? = some c → isSeparator c = false
  noLexeme : ∀ t x, WrittenAs t x → ¬ x <+: cs

theorem startsNothing_iff {c : Char} {cs : List Char} :
    StartsNothing (c :: cs) ↔ lexeme? c cs = none := by
  constructor
  · intro h
    cases hlexeme : lexeme? c cs with
    | none => rfl
    | some l =>
      rcases writtenAs_of_lexeme? hlexeme with ⟨hc, -⟩ | ⟨kind, text, -, hwritten⟩
      · simp [h.noSeparator c rfl] at hc
      · have hprefix : c :: cs.take l.more <+: c :: cs :=
          List.cons_prefix_cons.mpr ⟨rfl, List.take_prefix ..⟩
        exact absurd hprefix (h.noLexeme _ _ (hwritten ⟨0, 0⟩))
  · intro h
    refine ⟨fun d hd => ?_, fun t x hx hprefix => ?_⟩
    · cases hd
      cases hc : isSeparator c with
      | false => rfl
      | true => simp [lexeme?_separator hc] at h
    · obtain ⟨d, y, rfl, hself⟩ := hx.lexeme?_self
      obtain ⟨rfl, rest, rfl⟩ := List.cons_prefix_cons.mp hprefix
      simp [lexeme?_eq_none_of_append h] at hself

/-- The longest lexeme at a place is the one that is taken. -/
theorem lexeme?_of_longest {t : Token} {x cs : List Char} (h : t.WrittenAs x)
    (hlongest : ∀ u y, WrittenAs u y → y <+: x ++ cs → y.length ≤ x.length) :
    ∃ c xs, x = c :: xs ∧
      lexeme? c (xs ++ cs) = some ⟨some (t.kind, t.text), xs.length⟩ := by
  obtain ⟨c, xs, rfl, hself⟩ := h.lexeme?_self
  refine ⟨c, xs, rfl, ?_⟩
  cases hlexeme : lexeme? c (xs ++ cs) with
  | none => simp [lexeme?_eq_none_of_append hlexeme] at hself
  | some l =>
    rcases writtenAs_of_lexeme? hlexeme with ⟨hc, -⟩ | ⟨kind, text, htoken, hwritten⟩
    · simp [lexeme?_separator hc] at hself
    · have hprefix : c :: (xs ++ cs).take l.more <+: c :: xs ++ cs :=
        List.cons_prefix_cons.mpr ⟨rfl, List.take_prefix ..⟩
      have hmore : l.more = xs.length := by
        have hle := hlongest _ _ (hwritten ⟨0, 0⟩) hprefix
        have hge := h.length_le rfl hlexeme
        have hwithin := more_le_of_lexeme? hlexeme
        simp only [List.length_cons, List.length_take] at hle hge
        omega
      -- The same text is a lexeme of both tokens, and it determines its token.
      have hx := hwritten ⟨0, 0⟩
      rw [hmore, List.take_left] at hx
      have hsame := h.bare_eq hx
      have hkind : kind = t.kind := congrArg Token.kind hsame
      have htext : text = t.text := congrArg Token.text hsame
      rw [← hkind, ← htext, ← htoken, ← hmore]

/-- A lexeme is taken as well if the text ends anywhere behind it. -/
theorem lexeme?_of_append {c : Char} {cs ds : List Char} {l : Lexeme}
    (h : lexeme? c (cs ++ ds) = some l) (hwithin : l.more ≤ cs.length) :
    lexeme? c cs = some l := by
  rcases writtenAs_of_lexeme? h with ⟨hc, rfl⟩ | ⟨kind, text, htoken, hwritten⟩
  · exact lexeme?_separator hc cs
  · have hx := hwritten ⟨0, 0⟩
    rw [List.take_append_of_le_length hwithin] at hx
    have hsplit : c :: cs.take l.more ++ cs.drop l.more = c :: cs := by simp
    have hlength : (c :: cs.take l.more).length = l.more + 1 := by simp [hwithin]
    have hlongest : ∀ u y, WrittenAs u y → y <+: c :: cs.take l.more ++ cs.drop l.more →
        y.length ≤ (c :: cs.take l.more).length := by
      rintro u y hy ⟨rest, hrest⟩
      have hfull : c :: (cs ++ ds) = y ++ (rest ++ ds) := by
        rw [← List.append_assoc, hrest, hsplit]
        rfl
      rw [hlength]
      exact hy.length_le hfull h
    obtain ⟨d, xs, hxs, htaken⟩ := lexeme?_of_longest hx hlongest
    obtain ⟨rfl, rfl⟩ := List.cons.inj hxs
    have hmore : (cs.take l.more).length = l.more := by simp [hwithin]
    rw [List.take_append_drop, hmore, ← htoken] at htaken
    exact htaken

-- ---------------------------------------------------------------------------
-- The path through a text
-- ---------------------------------------------------------------------------

/-- `Reaches cs rest`: from the front of `cs`, taking separators and the longest lexemes leads
    to the front of `rest`. -/
inductive Reaches : List Char → List Char → Prop where
  | here {cs} : Reaches cs cs
  | separator {c cs rest} (blank : isSeparator c = true) (next : Reaches cs rest) :
      Reaches (c :: cs) rest
  | lexeme {t x cs rest} (written : WrittenAs t x)
      (longest : ∀ u y, WrittenAs u y → y <+: x ++ cs → y.length ≤ x.length)
      (next : Reaches cs rest) : Reaches (x ++ cs) rest

namespace Reaches

variable {cs rest rest' : List Char}

/-- Every step along the path is that of the lexeme which is taken. -/
theorem by_lexemes {motive : List Char → Prop} (h : Reaches cs rest) (here : motive rest)
    (step : ∀ c cs l, lexeme? c cs = some l → Reaches (cs.drop l.more) rest →
      motive (cs.drop l.more) → motive (c :: cs)) : motive cs := by
  induction h with
  | here => exact here
  | @separator c cs _ hc hnext ih =>
    exact step c cs _ (lexeme?_separator hc cs) hnext (ih here step)
  | @lexeme t x cs _ hx hlongest hnext ih =>
    obtain ⟨c, xs, rfl, hlexeme⟩ := lexeme?_of_longest hx hlongest
    have hdrop : (xs ++ cs).drop xs.length = cs := List.drop_left
    rw [← hdrop] at hnext
    refine step c (xs ++ cs) _ hlexeme hnext ?_
    rw [hdrop]
    exact ih here step

theorem cons_inv {c : Char} (h : Reaches (c :: cs) rest) :
    rest = c :: cs ∨ ∃ l, lexeme? c cs = some l ∧ Reaches (cs.drop l.more) rest := by
  generalize hfront : c :: cs = front at h
  cases h with
  | here => exact .inl rfl
  | separator hc hnext =>
    cases hfront
    exact .inr ⟨_, lexeme?_separator hc cs, hnext⟩
  | lexeme hx hlongest hnext =>
    obtain ⟨d, xs, rfl, hlexeme⟩ := lexeme?_of_longest hx hlongest
    obtain ⟨rfl, rfl⟩ := List.cons.inj hfront
    exact .inr ⟨_, hlexeme, by simpa using hnext⟩

/-- The step of a lexeme that is taken. -/
theorem cons {c : Char} {l : Lexeme} (hlexeme : lexeme? c cs = some l)
    (h : Reaches (cs.drop l.more) rest) : Reaches (c :: cs) rest := by
  rcases writtenAs_of_lexeme? hlexeme with ⟨hc, rfl⟩ | ⟨kind, text, -, hwritten⟩
  · exact .separator hc h
  · have hwithin := more_le_of_lexeme? hlexeme
    have htext : c :: cs.take l.more ++ cs.drop l.more = c :: cs := by simp
    rw [← htext]
    refine .lexeme (hwritten ⟨0, 0⟩) ?_ h
    rintro u y hy ⟨ds, hsplit⟩
    have hlength := hy.length_le (hsplit.trans htext).symm hlexeme
    simpa [hwithin] using hlength

variable {c c' : Char}

/-- Where nothing starts the path ends. -/
theorem eq_of_startsNothing (h : Reaches (c :: cs) rest) (hend : StartsNothing (c :: cs)) :
    rest = c :: cs := by
  rcases h.cons_inv with hrest | ⟨l, hlexeme, -⟩
  · exact hrest
  · simp [startsNothing_iff.mp hend] at hlexeme

/-- Nothing starts at one place of the path at most. -/
theorem unique (h : Reaches cs (c :: rest)) (hend : StartsNothing (c :: rest))
    (h' : Reaches cs (c' :: rest')) (hend' : StartsNothing (c' :: rest')) :
    c :: rest = c' :: rest' := by
  refine h.by_lexemes (motive := fun cs => Reaches cs (c' :: rest') → c :: rest = c' :: rest')
    (fun h' => (h'.eq_of_startsNothing hend).symm) ?_ h'
  intro d ds l hlexeme _ ih h'
  rcases h'.cons_inv with hstop | ⟨l', hlexeme', hnext⟩
  · rw [hstop] at hend'
    simp [startsNothing_iff.mp hend'] at hlexeme
  · obtain rfl : l' = l := Option.some.inj (hlexeme'.symm.trans hlexeme)
    exact ih hnext

end Reaches

-- ---------------------------------------------------------------------------
-- Where scanning fails
-- ---------------------------------------------------------------------------

/-- Scanning that fails has come to a character that starts nothing, and what stands in front
    of it has tokens. -/
theorem reaches_of_scanFrom_error {front cs : List Char} {f : LexFault}
    (h : scanFrom (.behind front) cs = .error f) :
    ∃ mid rest ts, cs = mid ++ f.found :: rest ∧ f.position = .behind (front ++ mid) ∧
      Lexes mid ts ∧ Reaches cs (f.found :: rest) ∧ StartsNothing (f.found :: rest) := by
  generalize hplace : Position.behind front = place at h
  fun_induction scanFrom place cs generalizing front with
  | case1 => cases h
  | case2 place c cs hnone =>
    cases h
    exact ⟨[], cs, [], rfl, by simp [hplace], .nil, .here, startsNothing_iff.mpr hnone⟩
  | case3 place c cs l hlexeme g hscan ih =>
    cases h
    subst hplace
    obtain ⟨mid, rest, ts, hsplit, hposition, hmid, hpath, hend⟩ :=
      ih (Position.after_behind front _).symm hscan
    have htext : cs = (cs.take l.more ++ mid) ++ f.found :: rest := by
      rw [List.append_assoc, ← hsplit, List.take_append_drop]
    have hmore : (cs.take l.more).length = l.more := by simp [more_le_of_lexeme? hlexeme]
    have htaken : lexeme? c (cs.take l.more ++ mid) = some l :=
      lexeme?_of_append (htext ▸ hlexeme) (by simp [hmore])
    have hbehind : (cs.take l.more ++ mid).drop l.more = mid := List.drop_left' hmore
    refine ⟨c :: (cs.take l.more ++ mid), rest, _, congrArg (c :: ·) htext, ?_,
      .cons htaken (hbehind.symm ▸ hmid), hpath.cons hlexeme, hend⟩
    simpa using hposition
  | case4 => cases h

/-- Scanning fails where the path comes to a character that starts nothing. -/
theorem scanFrom_of_reaches {cs rest : List Char} {c : Char} (h : Reaches cs (c :: rest))
    (hend : StartsNothing (c :: rest)) :
    ∃ mid, cs = mid ++ c :: rest ∧
      ∀ front, scanFrom (.behind front) cs = .error ⟨c, .behind (front ++ mid)⟩ := by
  refine h.by_lexemes
    (motive := fun cs => ∃ mid, cs = mid ++ c :: rest ∧
      ∀ front, scanFrom (.behind front) cs = .error ⟨c, .behind (front ++ mid)⟩)
    ⟨[], rfl, fun front => ?_⟩ ?_
  · rw [scanFrom, startsNothing_iff.mp hend]
    simp
  · rintro d ds l hlexeme - ⟨mid, hsplit, hscan⟩
    refine ⟨d :: (ds.take l.more ++ mid), ?_, fun front => ?_⟩
    · simp [← hsplit]
    · rw [scanFrom, hlexeme]
      simp only [Position.after_behind, hscan]
      simp

/-- Lexing comes to the character behind the first `p` ones, which have tokens, and there
    nothing starts. -/
structure FaultsAt (cs : List Char) (p : Nat) : Prop where
  inside : p < cs.length
  front : ∃ ts, scan (String.ofList (cs.take p)) = .ok ts
  reached : Reaches cs (cs.drop p)
  nothing : StartsNothing (cs.drop p)

theorem faultsAt_of_scan_error {source : String} {f : LexFault} (h : scan source = .error f) :
    ∃ p, FaultsAt source.toList p := by
  have hscan : scanFrom (.behind []) source.toList = .error f := h
  obtain ⟨mid, rest, ts, hsplit, -, hmid, hpath, hend⟩ := reaches_of_scanFrom_error hscan
  have htake : source.toList.take mid.length = mid := by simp [hsplit]
  have hdrop : source.toList.drop mid.length = f.found :: rest := by simp [hsplit]
  refine ⟨mid.length, by simp [hsplit], ?_, hdrop ▸ hpath, hdrop ▸ hend⟩
  rw [← htake, ← String.toList_ofList (l := source.toList.take mid.length)] at hmid
  obtain ⟨us, hus, -⟩ := scan_of_lexes hmid
  exact ⟨us, hus⟩

namespace FaultsAt

variable {cs : List Char} {p q : Nat}

theorem exists_char (h : FaultsAt cs p) :
    ∃ c, cs.drop p = c :: cs.drop (p + 1) ∧ cs[p]? = some c :=
  ⟨_, List.drop_eq_getElem_cons h.inside, List.getElem?_eq_getElem h.inside⟩

theorem unique (h : FaultsAt cs p) (h' : FaultsAt cs q) : q = p := by
  have hpath := h.reached
  have hend := h.nothing
  have hpath' := h'.reached
  have hend' := h'.nothing
  obtain ⟨c, hchar, -⟩ := h.exists_char
  obtain ⟨c', hchar', -⟩ := h'.exists_char
  rw [hchar] at hpath hend
  rw [hchar'] at hpath' hend'
  have hsame := hpath.unique hend hpath' hend'
  rw [← hchar, ← hchar'] at hsame
  have hlength := congrArg List.length hsame
  have hp := h.inside
  have hq := h'.inside
  simp only [List.length_drop] at hlength
  omega

/-- The character and its place are reported. -/
theorem scan_eq_error {source : String} (h : FaultsAt source.toList p) :
    ∃ f, scan source = .error f ∧ source.toList[p]? = some f.found ∧
      f.position = .behind (source.toList.take p) := by
  have hpath := h.reached
  have hend := h.nothing
  obtain ⟨c, hdrop, hchar⟩ := h.exists_char
  rw [hdrop] at hpath hend
  obtain ⟨mid, hsplit, hscan⟩ := scanFrom_of_reaches hpath hend
  have hmid : source.toList.take p = mid := by
    have hsame : source.toList.take p ++ source.toList.drop p =
        mid ++ source.toList.drop p := by
      rw [List.take_append_drop, hdrop, ← hsplit]
    exact List.append_cancel_right hsame
  exact ⟨_, hscan [], hchar, by simp [hmid]⟩

/-- What is wrong with the character. -/
theorem exists_reason (h : FaultsAt cs p) :
    ∃ c rest, cs.drop p = c :: rest ∧
      ((c = '\x22' ∧ '\x22' ∉ rest.takeWhile (· != '\n')) ∨
        (c = ':' ∧ rest.head?.any isWordStart = false) ∨
        (isSeparator c = false ∧ ∀ t x, WrittenAs t x → x.head? ≠ some c)) := by
  have hend := h.nothing
  obtain ⟨c, hdrop, -⟩ := h.exists_char
  rw [hdrop, startsNothing_iff, lexeme?_eq_none_iff, isOpener_eq_false_iff] at hend
  exact ⟨_, _, hdrop, hend⟩

end FaultsAt

/-- Scanning fails exactly if lexing comes to a character that starts nothing. There is one
    such place at most, which is reported. -/
theorem scan_fails_iff (source : String) :
    ((∃ f, scan source = .error f) ↔ ∃ p, FaultsAt source.toList p) ∧
      ∀ p, FaultsAt source.toList p →
        (∀ q, FaultsAt source.toList q → q = p) ∧
        (∃ f, scan source = .error f ∧ source.toList[p]? = some f.found ∧
          f.position = .behind (source.toList.take p)) ∧
        ∃ c rest, source.toList.drop p = c :: rest ∧
          ((c = '\x22' ∧ '\x22' ∉ rest.takeWhile (· != '\n')) ∨
            (c = ':' ∧ rest.head?.any isWordStart = false) ∨
            (isSeparator c = false ∧ ∀ t x, WrittenAs t x → x.head? ≠ some c)) := by
  refine ⟨⟨?_, ?_⟩, fun p hp => ⟨fun q hq => hp.unique hq, hp.scan_eq_error, hp.exists_reason⟩⟩
  · rintro ⟨f, hf⟩
    exact faultsAt_of_scan_error hf
  · rintro ⟨p, hp⟩
    obtain ⟨f, hf, -⟩ := hp.scan_eq_error
    exact ⟨f, hf⟩

/-- A point in a string and in a comment, and one behind a number that makes no fraction. -/
def pointedText : String := "\".\" //.\n1.x"

theorem scan_fails_iff_pointedText :
    FaultsAt pointedText.toList 9 ∧ (∀ q, FaultsAt pointedText.toList q → q = 9) ∧
      scan pointedText = .error ⟨'.', ⟨2, 2⟩⟩ := by
  have hscan : scan pointedText = .error ⟨'.', ⟨2, 2⟩⟩ := by decide +kernel
  obtain ⟨p, hp⟩ := (scan_fails_iff pointedText).1.mp ⟨_, hscan⟩
  obtain ⟨hunique, ⟨f, hf, -, hplace⟩, -⟩ := (scan_fails_iff pointedText).2 p hp
  obtain rfl : f = ⟨'.', ⟨2, 2⟩⟩ := by simpa [hscan] using hf.symm
  have hnine : ∀ p < pointedText.toList.length,
      (⟨2, 2⟩ : Position) = .behind (pointedText.toList.take p) → p = 9 := by decide
  obtain rfl := hnine p hp.inside hplace
  exact ⟨hp, hunique, hscan⟩

end Yolol.Token

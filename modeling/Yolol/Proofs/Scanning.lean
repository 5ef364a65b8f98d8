-- SUMMARY: Scanning as a relation between text and tokens, one lexeme at a time.
import Mathlib.Data.List.TakeWhile
import Yolol.Proofs.Lexical

/-!
# Scanning

A text and its tokens are related one lexeme at a time, without regard to places. Each
kind of lexeme can be put in front of a text that has been related already, provided
that the text does not start with a character that would make the lexeme longer.
-/

namespace Yolol.Token

/-! ## Lexemes in front of a text -/

/-- The token without its place. -/
def bare (t : Token) : Token := { t with position := ⟨0, 0⟩ }

/-- `Lexes cs ts`: the text `cs` is scanned as the tokens `ts`, of which the places are left
    out. -/
inductive Lexes : List Char → List Token → Prop where
  | nil : Lexes [] []
  | cons {c cs l ts} (lexeme : lexeme? c cs = some l) (next : Lexes (cs.drop l.more) ts) :
      Lexes (c :: cs) (l.tokens ⟨0, 0⟩ ++ ts)

theorem map_bare_tokens (l : Lexeme) (p : Position) : (l.tokens p).map bare = l.tokens ⟨0, 0⟩ := by
  unfold Lexeme.tokens
  split <;> rfl

/-- A text that lexes is scanned, from any place on. -/
theorem Lexes.scanFrom {cs : List Char} {ts : List Token} (h : Lexes cs ts) (p : Position) :
    ∃ us, scanFrom p cs = .ok us ∧ us.map bare = ts := by
  induction h generalizing p with
  | nil => exact ⟨[], by rw [Token.scanFrom], rfl⟩
  | @cons c cs l ts hlexeme _ ih =>
    obtain ⟨us, hscan, hus⟩ := ih (p.after (c :: cs.take l.more))
    refine ⟨l.tokens p ++ us, ?_, ?_⟩
    · rw [Token.scanFrom, hlexeme]
      simp only [hscan]
    · rw [List.map_append, hus, map_bare_tokens]

/-- A text that is scanned lexes as its tokens. -/
theorem lexes_of_scanFrom {p : Position} {cs : List Char} {ts : List Token}
    (h : scanFrom p cs = .ok ts) : Lexes cs (ts.map bare) := by
  fun_induction scanFrom p cs generalizing ts with
  | case1 =>
    cases h
    exact .nil
  | case2 => cases h
  | case3 => cases h
  | case4 p c cs l hlexeme us hscan ih =>
    cases h
    rw [List.map_append, map_bare_tokens]
    exact .cons hlexeme (ih hscan)

/-! ## Classes of characters -/

theorem isWordStart_of_isNumeral {c : Char} (h : isNumeral c = true) : isWordStart c = false := by
  have hrange := toNat_of_isNumeral h
  have hne (d : Char) (hd : isNumeral d = false) : c ≠ d := by
    rintro rfl
    simp [hd] at h
  have hcapital : ('A' ≤ c && c ≤ 'Z') = false := by
    have hless : ¬ 'A' ≤ c := fun hle => by
      have hle : 65 ≤ c.toNat := hle
      omega
    simp [hless]
  have hsame : foldCase c = c := by
    simp [foldCase, hcapital, hne 'ı' rfl, hne 'İ' rfl, hne 'ſ' rfl, hne '\u212a' rfl]
  have hletter : ¬ 'a' ≤ c := fun hle => by
    have hle : 97 ≤ c.toNat := hle
    omega
  simp [isWordStart, hsame, hletter, hne '_' rfl]

/-- A character that starts a word or a number starts nothing else. -/
theorem isWordChar_plain {c : Char} (h : isWordChar c = true) :
    isSeparator c = false ∧ c ≠ '\n' ∧ c ≠ '/' ∧ c ≠ '\x22' ∧ c ≠ ':' := by
  have hne (d : Char) (hd : isWordChar d = false) : c ≠ d := by
    rintro rfl
    simp [hd] at h
  refine ⟨?_, hne _ rfl, hne _ rfl, hne _ rfl, hne _ rfl⟩
  simp [isSeparator, hne ' ' rfl, hne '\t' rfl, hne '\r' rfl]

theorem isWordChar_of_isWord {w : List Char} (h : isWord w = true) :
    ∀ c ∈ w, isWordChar c = true := by
  match w with
  | c :: w =>
    obtain ⟨hc, hw⟩ : isWordStart c = true ∧ w.all isWordChar = true := by
      simpa [isWord] using h
    refine List.forall_mem_cons.mpr ⟨?_, List.all_eq_true.mp hw⟩
    simp [isWordChar, hc]

theorem colon_not_mem_of_isWord {w : List Char} (h : isWord w = true) : ':' ∉ w :=
  fun hmem => by cases isWordChar_of_isWord h ':' hmem

theorem lexeme?_separator {c : Char} (h : isSeparator c = true) (cs : List Char) :
    lexeme? c cs = some ⟨none, 0⟩ := if_pos h

theorem lexeme?_numeral {c : Char} (h : isNumeral c = true) (cs : List Char) :
    lexeme? c cs =
      some ⟨some (.number, some (String.ofList (c :: cs.take (numeralLength cs)))),
        numeralLength cs⟩ := by
  have hchar : isWordChar c = true := by simp [isWordChar, h]
  obtain ⟨hseparator, hnewline, hslash, hquote, -⟩ := isWordChar_plain hchar
  simp [lexeme?, hseparator, hnewline, hslash, hquote, h]

theorem lexeme?_word {c : Char} (h : isWordStart c = true) (cs : List Char) :
    lexeme? c cs = some {
      token := (reserved? (c :: cs.takeWhile isWordChar)).elim
        (some (.identifier, some (String.ofList (c :: cs.takeWhile isWordChar))))
        fun kind => some (kind, none)
      more := (cs.takeWhile isWordChar).length } := by
  have hchar : isWordChar c = true := by simp [isWordChar, h]
  obtain ⟨hseparator, hnewline, hslash, hquote, -⟩ := isWordChar_plain hchar
  have hnumeral : isNumeral c = false := by
    cases hc : isNumeral c with
    | false => rfl
    | true => simp [isWordStart_of_isNumeral hc] at h
  simp only [lexeme?, hseparator, hnewline, hslash, hquote, hnumeral, h, Bool.false_eq_true,
    if_false, false_and, if_true]
  cases reserved? (c :: cs.takeWhile isWordChar) with
  | none => rfl
  | some kind => rfl

theorem lexeme?_colon {cs : List Char} (h : cs.head?.any isWordStart = true) :
    lexeme? ':' cs = some {
      token := some (.identifier, some (String.ofList (':' :: cs.takeWhile isWordChar)))
      more := (cs.takeWhile isWordChar).length } := by
  rw [lexeme?, if_neg (by decide), if_neg (by decide), if_neg (by simp), if_neg (by decide),
    if_neg (by decide), if_neg (by decide), if_pos rfl, if_pos h]

theorem lexeme?_comment (cs : List Char) :
    lexeme? '/' ('/' :: cs) = some {
      token := some (.comment, some (String.ofList (cs.takeWhile (· != '\n'))))
      more := 1 + (cs.takeWhile (· != '\n')).length } := by
  rw [lexeme?, if_neg (by decide), if_neg (by decide), if_pos ⟨rfl, rfl⟩]
  rfl

/-! ## Building a text from its lexemes -/

/-- The text does not start with a character that a word or a number could go on with. -/
def Parted (cs : List Char) : Prop := ∀ c, cs.head? = some c → isWordChar c = false ∧ c ≠ '.'

theorem takeWhile_append_of_head {p : Char → Bool} {as bs : List Char} (has : ∀ c ∈ as, p c = true)
    (hbs : ∀ c, bs.head? = some c → p c = false) : (as ++ bs).takeWhile p = as := by
  rw [List.takeWhile_append_of_pos has]
  cases bs with
  | nil => simp
  | cons b bs => rw [List.takeWhile_cons_of_neg (by simp [hbs b rfl]), List.append_nil]

theorem lexeme?_string {s : List Char} (hs : isQuotable s = true) (cs : List Char) :
    lexeme? '\x22' (s ++ '\x22' :: cs) =
      some ⟨some (.string, some (String.ofList s)), s.length + 1⟩ := by
  have hbody : (s ++ '\x22' :: cs).takeWhile (fun d => d != '\x22' && d != '\n') = s :=
    takeWhile_append_of_head (List.all_eq_true.mp hs) fun c hc => by cases hc; rfl
  rw [lexeme?, if_neg (by decide), if_neg (by decide), if_neg (by simp), if_pos rfl, hbody]
  simp

theorem takeWhile_numerals {ds cs : List Char} (hds : ∀ d ∈ ds, isNumeral d = true)
    (hcs : ∀ c, cs.head? = some c → isNumeral c = false) :
    (ds ++ cs).takeWhile isNumeral = ds :=
  takeWhile_append_of_head hds hcs

theorem Parted.numeral {cs : List Char} (hcs : Parted cs) :
    ∀ c, cs.head? = some c → isNumeral c = false := by
  intro c hc
  have hword := (hcs c hc).1
  simp only [isWordChar, Bool.or_eq_false_iff] at hword
  exact hword.2

theorem numeralLength_whole {ds cs : List Char} (hds : ∀ d ∈ ds, isNumeral d = true)
    (hcs : Parted cs) : numeralLength (ds ++ cs) = ds.length := by
  rw [numeralLength, takeWhile_numerals hds hcs.numeral, List.drop_left]
  split
  · next rest => exact absurd rfl (hcs '.' rfl).2
  · rfl

theorem numeralLength_fraction {ds places cs : List Char} (hds : ∀ d ∈ ds, isNumeral d = true)
    (hplaces : ∀ d ∈ places, isNumeral d = true) (hne : places ≠ []) (hcs : Parted cs) :
    numeralLength (ds ++ '.' :: (places ++ cs)) = (ds ++ '.' :: places).length := by
  have hpoint : ∀ c, ('.' :: (places ++ cs)).head? = some c → isNumeral c = false := by
    intro c hc
    cases hc
    rfl
  have hlength : places.length ≠ 0 := fun h => hne (List.length_eq_zero_iff.mp h)
  rw [numeralLength, takeWhile_numerals hds hpoint, List.drop_left]
  simp only [takeWhile_numerals hplaces hcs.numeral, hlength, if_false,
    List.length_append, List.length_cons]
  omega

/-- The whole text of a number is its lexeme. -/
theorem lexeme?_number {w cs : List Char} (hw : isNumberText w = true) (hcs : Parted cs) :
    ∃ c ws, w = c :: ws ∧
      lexeme? c (ws ++ cs) = some ⟨some (.number, some (String.ofList w)), ws.length⟩ := by
  obtain ⟨c, ds, hc, hds, rfl | ⟨places, rfl, hne, hplaces⟩⟩ := isNumberText_cases hw
  · refine ⟨c, ds, rfl, ?_⟩
    rw [lexeme?_numeral hc, numeralLength_whole hds hcs, List.take_left]
  · have hlength :
        numeralLength ((ds ++ '.' :: places) ++ cs) = (ds ++ '.' :: places).length := by
      rw [List.append_assoc, List.cons_append]
      exact numeralLength_fraction hds hplaces hne hcs
    refine ⟨c, ds ++ '.' :: places, rfl, ?_⟩
    rw [lexeme?_numeral hc, hlength, List.take_left]

theorem takeWhile_word {w cs : List Char} (hw : w.all isWordChar = true) (hcs : Parted cs) :
    (w ++ cs).takeWhile isWordChar = w :=
  takeWhile_append_of_head (List.all_eq_true.mp hw) fun c hc => (hcs c hc).1

namespace Lexes

variable {cs : List Char} {ts : List Token}

theorem space (h : Lexes cs ts) : Lexes (' ' :: cs) ts := by
  have hlexeme : lexeme? ' ' cs = some ⟨none, 0⟩ := rfl
  exact .cons hlexeme h

theorem newline (h : Lexes cs ts) : Lexes ('\n' :: cs) ({ kind := .newline } :: ts) := by
  have hlexeme : lexeme? '\n' cs = some ⟨some (.newline, none), 0⟩ := rfl
  exact .cons hlexeme h

theorem mark {c : Char} {kind : Kind} (hc : punctuation? c = some kind)
    (hslash : c ≠ '/' ∨ cs.head? ≠ some '/') (h : Lexes cs ts) :
    Lexes (c :: cs) ({ kind } :: ts) := by
  have hlexeme : lexeme? c cs = some ⟨some (kind, none), 0⟩ := by
    unfold punctuation? at hc
    split at hc <;> cases hc
    case h_4 =>
      have hcs : cs.head? ≠ some '/' := by simpa using hslash
      rw [lexeme?, if_neg (by decide), if_neg (by decide), if_neg (by simp [hcs])]
      rfl
    all_goals rfl
  exact .cons hlexeme h

theorem keyword {w : List Char} {kind : Kind} (hw : isWord w = true)
    (hkind : reserved? w = some kind) (hcs : Parted cs) (h : Lexes cs ts) :
    Lexes (w ++ cs) ({ kind } :: ts) := by
  match w with
  | c :: w =>
    obtain ⟨hc, hw⟩ : isWordStart c = true ∧ w.all isWordChar = true := by
      simpa [isWord] using hw
    have hlexeme : lexeme? c (w ++ cs) = some ⟨some (kind, none), w.length⟩ := by
      rw [lexeme?_word hc, takeWhile_word hw hcs, hkind]
      rfl
    have hnext : Lexes ((w ++ cs).drop w.length) ts := by simpa using h
    exact .cons hlexeme hnext

theorem name {w : List Char} (hw : isNameText w = true) (hcs : Parted cs) (h : Lexes cs ts) :
    Lexes (w ++ cs) ({ kind := .identifier, text := some (String.ofList w) } :: ts) := by
  unfold isNameText at hw
  split at hw
  · next w =>
    match w with
    | c :: w =>
      obtain ⟨hc, hw⟩ : isWordStart c = true ∧ w.all isWordChar = true := by
        simpa [isWord] using hw
      have hall : (c :: w).all isWordChar = true := by simp [isWordChar, hc, hw]
      have hlexeme : lexeme? ':' (c :: w ++ cs) =
          some ⟨some (.identifier, some (String.ofList (':' :: c :: w))), (c :: w).length⟩ := by
        rw [lexeme?_colon (by simp [hc]), takeWhile_word hall hcs]
      have hnext : Lexes ((c :: w ++ cs).drop (c :: w).length) ts := by simpa using h
      exact .cons hlexeme hnext
  · obtain ⟨hw, hfree⟩ : isWord w = true ∧ reserved? w = none := by simpa using hw
    match w with
    | c :: w =>
      obtain ⟨hc, hw⟩ : isWordStart c = true ∧ w.all isWordChar = true := by
        simpa [isWord] using hw
      have hlexeme : lexeme? c (w ++ cs) =
          some ⟨some (.identifier, some (String.ofList (c :: w))), w.length⟩ := by
        rw [lexeme?_word hc, takeWhile_word hw hcs, hfree]
        rfl
      have hnext : Lexes ((w ++ cs).drop w.length) ts := by simpa using h
      exact .cons hlexeme hnext

/-- Text between quotes. -/
theorem string {s : List Char} (hs : isQuotable s = true) (h : Lexes cs ts) :
    Lexes ('\x22' :: (s ++ '\x22' :: cs))
      ({ kind := .string, text := some (String.ofList s) } :: ts) := by
  have hnext : Lexes ((s ++ '\x22' :: cs).drop (s.length + 1)) ts := by
    rw [List.drop_append, List.drop_eq_nil_of_le (Nat.le_succ _)]
    simpa using h
  exact .cons (lexeme?_string hs cs) hnext

/-- A comment goes on to the end of its line. -/
theorem comment {s : List Char} (hs : isSingleLine s = true)
    (hcs : cs = [] ∨ cs.head? = some '\n') (h : Lexes cs ts) :
    Lexes ('/' :: '/' :: (s ++ cs))
      ({ kind := .comment, text := some (String.ofList s) } :: ts) := by
  have hbody : (s ++ cs).takeWhile (· != '\n') = s := by
    apply takeWhile_append_of_head (List.all_eq_true.mp hs)
    intro c hc
    rcases hcs with rfl | hcs
    · cases hc
    · rw [hcs] at hc
      cases hc
      rfl
  have hlexeme : lexeme? '/' ('/' :: (s ++ cs)) =
      some ⟨some (.comment, some (String.ofList s)), 1 + s.length⟩ := by
    rw [lexeme?_comment, hbody]
  have hnext : Lexes (('/' :: (s ++ cs)).drop (1 + s.length)) ts := by
    simpa [Nat.add_comm 1] using h
  exact .cons hlexeme hnext

theorem number {w : List Char} (hw : isNumberText w = true) (hcs : Parted cs) (h : Lexes cs ts) :
    Lexes (w ++ cs) ({ kind := .number, text := some (String.ofList w) } :: ts) := by
  obtain ⟨c, ws, rfl, hlexeme⟩ := lexeme?_number hw hcs
  have hnext : Lexes ((ws ++ cs).drop ws.length) ts := by simpa using h
  exact .cons hlexeme hnext

end Lexes

/-! ## Texts of scanned tokens -/

theorem take_length_takeWhile (p : Char → Bool) (cs : List Char) :
    cs.take (cs.takeWhile p).length = cs.takeWhile p :=
  (List.prefix_iff_eq_take.mp (List.takeWhile_prefix p)).symm

theorem drop_length_takeWhile (p : Char → Bool) (cs : List Char) :
    cs.drop (cs.takeWhile p).length = cs.dropWhile p := by
  induction cs with
  | nil => rfl
  | cons c cs ih =>
    by_cases hc : p c = true
    · simpa [hc] using ih
    · simp [hc]

/-- What is taken for a number is one. -/
theorem isNumberText_take {c : Char} (hc : isNumeral c = true) (cs : List Char) :
    isNumberText (c :: cs.take (numeralLength cs)) = true := by
  have hall {as : List Char} : ∀ d ∈ as.takeWhile isNumeral, isNumeral d = true :=
    fun d hd => List.mem_takeWhile_imp hd
  have hdigits : ∀ d ∈ c :: cs.takeWhile isNumeral, isNumeral d = true :=
    List.forall_mem_cons.mpr ⟨hc, hall⟩
  have hwhole := take_length_takeWhile isNumeral cs
  rw [numeralLength, drop_length_takeWhile]
  split
  · next rest hrest =>
    simp only
    split
    · rw [hwhole]
      exact isNumberText_whole hdigits
    · next hfraction =>
      have hne : rest.takeWhile isNumeral ≠ [] := fun h => hfraction (by simp [h])
      have htake : cs.take
          ((cs.takeWhile isNumeral).length + 1 + (rest.takeWhile isNumeral).length) =
            cs.takeWhile isNumeral ++ '.' :: rest.takeWhile isNumeral := by
        rw [Nat.add_assoc, List.take_add, hwhole, drop_length_takeWhile, hrest, Nat.add_comm 1,
          List.take_succ_cons, take_length_takeWhile]
      rw [htake]
      exact isNumberText_fraction hdigits hne hall
  · rw [hwhole]
    exact isNumberText_whole hdigits

/-- `t.WrittenAs x`: the text `x` is a lexeme of the token. -/
inductive WrittenAs : Token → List Char → Prop where
  | newline {p} : WrittenAs { kind := .newline, position := p } ['\n']
  | comment {s p} (singleLine : isSingleLine s = true) :
      WrittenAs { kind := .comment, text := some (String.ofList s), position := p }
        ('/' :: '/' :: s)
  | string {s p} (quotable : isQuotable s = true) :
      WrittenAs { kind := .string, text := some (String.ofList s), position := p }
        ('\x22' :: (s ++ ['\x22']))
  | number {x p} (shape : isNumberText x = true) :
      WrittenAs { kind := .number, text := some (String.ofList x), position := p } x
  | name {x p} (shape : isNameText x = true) :
      WrittenAs { kind := .identifier, text := some (String.ofList x), position := p } x
  | word {x kind p} (isReserved : reserved? x = some kind) :
      WrittenAs { kind, position := p } x
  | mark {c kind p} (punctuation : punctuation? c = some kind) :
      WrittenAs { kind, position := p } [c]

theorem isWord_takeWhile {cs : List Char} (h : cs.head?.any isWordStart = true) :
    isWord (cs.takeWhile isWordChar) = true := by
  match cs with
  | c :: cs =>
    have hc : isWordStart c = true := h
    have hchar : isWordChar c = true := by simp [isWordChar, hc]
    simp [isWord, hchar, hc]

/-- A lexeme is a separator, or it is the text of its token. -/
theorem writtenAs_of_lexeme? {c : Char} {cs : List Char} {l : Lexeme}
    (h : lexeme? c cs = some l) :
    (isSeparator c = true ∧ l = ⟨none, 0⟩) ∨
      ∃ kind text, l.token = some (kind, text) ∧
        ∀ p, WrittenAs { kind, text, position := p } (c :: cs.take l.more) := by
  unfold lexeme? at h
  split at h
  · next hc =>
    cases h
    exact .inl ⟨hc, rfl⟩
  right
  split at h
  · next hc =>
    cases h
    subst hc
    exact ⟨_, _, rfl, fun p => .newline⟩
  split at h
  · next hslash =>
    cases h
    obtain ⟨rfl, hslash⟩ := hslash
    obtain ⟨ds, rfl⟩ := List.head?_eq_some_iff.mp hslash
    have hbody : isSingleLine (ds.takeWhile (· != '\n')) = true := by simp [isSingleLine]
    refine ⟨_, _, rfl, fun p => ?_⟩
    simpa [Nat.add_comm 1, take_length_takeWhile] using WrittenAs.comment (p := p) hbody
  split at h
  · next hc =>
    simp only at h
    split at h
    · next hquote =>
      cases h
      subst hc
      refine ⟨_, _, rfl, fun p => ?_⟩
      simp only [List.take_add_one, take_length_takeWhile, hquote, Option.toList_some]
      exact .string (by simp [isQuotable])
    · cases h
  split at h
  · next hc =>
    cases h
    exact ⟨_, _, rfl, fun p => .number (isNumberText_take hc cs)⟩
  split at h
  · next hc =>
    simp only at h
    split at h
    · next kind hkind =>
      cases h
      refine ⟨_, _, rfl, fun p => ?_⟩
      simp only [take_length_takeWhile]
      exact .word hkind
    · next hfree =>
      cases h
      have hcolon : c ≠ ':' := (isWordChar_plain (by simp [isWordChar, hc])).2.2.2.2
      refine ⟨_, _, rfl, fun p => ?_⟩
      simp only [take_length_takeWhile]
      exact .name (by simp [isNameText, hcolon, isWord, hc, hfree])
  split at h
  · next hc =>
    split at h
    · next hstart =>
      cases h
      subst hc
      refine ⟨_, _, rfl, fun p => ?_⟩
      simp only [take_length_takeWhile]
      exact .name (isWord_takeWhile hstart)
    · cases h
  · obtain ⟨kind, hkind, rfl⟩ := Option.map_eq_some_iff.mp h
    exact ⟨_, _, rfl, fun p => .mark hkind⟩

theorem isLexical_reserved {w : List Char} {kind : Kind} (h : reserved? w = some kind)
    (p : Position) : ({ kind, position := p } : Token).isLexical = true := by
  have hall : ∀ r ∈ reserved, ({ kind := r.2, position := p } : Token).isLexical = true := by
    simp only [reserved, List.forall_mem_cons]
    exact ⟨rfl, rfl, rfl, rfl, rfl, rfl, rfl, rfl, rfl, rfl, rfl, rfl, rfl, rfl, rfl, rfl, by simp⟩
  obtain ⟨r, hr, rfl⟩ := Option.map_eq_some_iff.mp h
  exact hall r (List.mem_of_find?_eq_some hr)

theorem isLexical_punctuation {c : Char} {kind : Kind} (h : punctuation? c = some kind)
    (p : Position) : ({ kind, position := p } : Token).isLexical = true := by
  unfold punctuation? at h
  split at h <;> cases h <;> rfl

theorem WrittenAs.isLexical {t : Token} {x : List Char} (h : t.WrittenAs x) :
    t.isLexical = true := by
  cases h with
  | newline => rfl
  | comment hx | string hx | number hx | name hx => simpa [Token.isLexical] using hx
  | word hx => exact isLexical_reserved hx _
  | mark hc => exact isLexical_punctuation hc _

/-- A lexeme makes a token with a text of the right shape. -/
theorem isLexical_of_lexeme? {c : Char} {cs : List Char} {l : Lexeme} (h : lexeme? c cs = some l)
    (p : Position) : ∀ t ∈ l.tokens p, t.isLexical = true := by
  unfold Lexeme.tokens
  rcases writtenAs_of_lexeme? h with ⟨-, rfl⟩ | ⟨kind, text, htoken, hwritten⟩
  · simp
  · rw [htoken]
    exact List.forall_mem_singleton.mpr (hwritten p).isLexical

theorem Lexes.isLexical {cs : List Char} {ts : List Token} (h : Lexes cs ts) :
    ∀ t ∈ ts, t.isLexical = true := by
  induction h with
  | nil => simp
  | cons hlexeme _ ih => exact List.forall_mem_append.mpr ⟨isLexical_of_lexeme? hlexeme _, ih⟩

/-! ## Comments end their lines -/

/-- A newline or nothing follows. -/
def EndsLine (ts : List Token) : Prop := ts = [] ∨ ts.head?.map (·.kind) = some .newline

/-- Every comment ends its line. -/
def CommentsEndLines : List Token → Prop
  | [] => True
  | t :: ts => (t.kind = .comment → EndsLine ts) ∧ CommentsEndLines ts

theorem CommentsEndLines.suffix {us ts : List Token} (h : CommentsEndLines (us ++ ts)) :
    CommentsEndLines ts := by
  induction us with
  | nil => exact h
  | cons u us ih => exact ih h.2

theorem reserved?_ne {kind : Kind} (h : ∀ r ∈ reserved, r.2 ≠ kind) (w : List Char) :
    reserved? w ≠ some kind := by
  intro hw
  obtain ⟨r, hr, hkind⟩ := Option.map_eq_some_iff.mp hw
  exact h r (List.mem_of_find?_eq_some hr) hkind

theorem reserved?_ne_comment (w : List Char) : reserved? w ≠ some .comment :=
  reserved?_ne (by decide) w

theorem head?_dropWhile_newline (cs : List Char) :
    cs.dropWhile (· != '\n') = [] ∨ (cs.dropWhile (· != '\n')).head? = some '\n' := by
  have hhead := List.head?_dropWhile_not (· != '\n') cs
  cases hrest : cs.dropWhile (· != '\n') with
  | nil => exact .inl rfl
  | cons d ds =>
    rw [hrest] at hhead
    exact .inr (by simpa using hhead)

/-- A comment is taken up to the end of its line. -/
theorem drop_of_comment {c : Char} {cs : List Char} {l : Lexeme} {text : Option String}
    (h : lexeme? c cs = some l) (hcomment : l.token = some (.comment, text)) :
    cs.drop l.more = [] ∨ (cs.drop l.more).head? = some '\n' := by
  unfold lexeme? at h
  split at h
  · cases h; cases hcomment
  split at h
  · cases h; cases hcomment
  split at h
  · cases h
    simp only
    rw [← List.drop_drop, drop_length_takeWhile]
    exact head?_dropWhile_newline (cs.drop 1)
  split at h
  · simp only at h
    split at h <;> cases h
    cases hcomment
  split at h
  · cases h; cases hcomment
  split at h
  · simp only at h
    split at h
    · next kind hkind =>
      cases h
      cases hcomment
      exact absurd hkind (reserved?_ne_comment _)
    · cases h; cases hcomment
  split at h
  · split at h <;> cases h
    cases hcomment
  · obtain ⟨kind, hkind, rfl⟩ := Option.map_eq_some_iff.mp h
    cases hcomment
    unfold punctuation? at hkind
    split at hkind <;> cases hkind

theorem Lexes.commentsEndLines {cs : List Char} {ts : List Token} (h : Lexes cs ts) :
    CommentsEndLines ts := by
  induction h with
  | nil => trivial
  | @cons c cs l ts hlexeme hnext ih =>
    unfold Lexeme.tokens
    split
    · exact ih
    · next kind text htoken =>
      refine ⟨fun hkind => ?_, ih⟩
      obtain rfl : kind = .comment := hkind
      rcases drop_of_comment hlexeme htoken with hend | hnewline
      · rw [hend] at hnext
        cases hnext
        exact .inl rfl
      · obtain ⟨ds, hds⟩ := List.head?_eq_some_iff.mp hnewline
        rw [hds] at hnext
        cases hnext with
        | cons hlexeme _ =>
          cases hlexeme
          exact .inr rfl

/-! ## Source text -/

@[simp] theorem isLexical_bare (t : Token) : t.bare.isLexical = t.isLexical := rfl

theorem commentsEndLines_map_bare {ts : List Token} :
    CommentsEndLines (ts.map bare) ↔ CommentsEndLines ts := by
  induction ts with
  | nil => rfl
  | cons t ts ih =>
    have hnext : EndsLine (ts.map bare) ↔ EndsLine ts := by cases ts <;> simp [EndsLine, bare]
    simp [CommentsEndLines, ih, hnext, bare]

/-- The tokens of source text have texts of the right shape, and comments among them end
    their lines. -/
theorem lexical_of_scan {source : String} {ts : List Token} (h : scan source = .ok ts) :
    (∀ t ∈ ts, t.isLexical = true) ∧ CommentsEndLines ts := by
  have hlexes := lexes_of_scanFrom h
  refine ⟨fun t ht => ?_, commentsEndLines_map_bare.mp hlexes.commentsEndLines⟩
  simpa using hlexes.isLexical t.bare (List.mem_map_of_mem ht)

/-- Source text that lexes is scanned. -/
theorem scan_of_lexes {source : String} {ts : List Token} (h : Lexes source.toList ts) :
    ∃ us, scan source = .ok us ∧ us.map bare = ts := h.scanFrom ⟨1, 1⟩

end Yolol.Token

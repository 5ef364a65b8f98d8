-- SUMMARY: How each token is written, and that its lexeme is the longest that starts there.
import Yolol.Proofs.LineText

/-!
# Lexemes

A lexeme is a stretch of text that makes a token. It determines the kind and the text of the
token, and the one that is taken is the longest that starts at its place. Reserved words may be
written in any letter case, so a token can have several lexemes.
-/

namespace Yolol.Token

/-! ## Reserved words -/

theorem reserved?_eq_some_iff {x : List Char} {kind : Kind} :
    reserved? x = some kind ↔ ∃ r ∈ reserved, r.2 = kind ∧ x.map foldCase = r.1.toList := by
  have hunique : ∀ a ∈ reserved, ∀ b ∈ reserved, a.1.toList = b.1.toList → a = b := by decide
  constructor
  · intro h
    obtain ⟨r, hr, rfl⟩ := Option.map_eq_some_iff.mp h
    have hfold : r.1.toList = x.map foldCase := by simpa using List.find?_some hr
    exact ⟨r, List.mem_of_find?_eq_some hr, rfl, hfold.symm⟩
  · rintro ⟨r, hmem, rfl, hfold⟩
    obtain ⟨a, ha⟩ : ∃ a, reserved.find? (fun r => r.1.toList == x.map foldCase) = some a :=
      Option.isSome_iff_exists.mp (List.find?_isSome.mpr ⟨r, hmem, by simp [hfold]⟩)
    have hsame : a.1.toList = r.1.toList := by
      rw [← hfold]
      simpa using List.find?_some ha
    rw [reserved?, ha, hunique a (List.mem_of_find?_eq_some ha) r hmem hsame]
    rfl

/-- A reserved word is a word, in any letter case. -/
theorem isWord_of_reserved? {x : List Char} {kind : Kind} (h : reserved? x = some kind) :
    isWord x = true := by
  obtain ⟨r, hmem, -, hfold⟩ := reserved?_eq_some_iff.mp h
  have hletters : ∀ r ∈ reserved,
      r.1.toList ≠ [] ∧ (r.1.toList.all fun c => 'a' ≤ c && c ≤ 'z') = true := by
    decide
  obtain ⟨hne, hall⟩ := hletters r hmem
  have hstart : ∀ c ∈ x, isWordStart c = true := by
    intro c hc
    have hc := List.all_eq_true.mp hall (foldCase c) (hfold ▸ List.mem_map_of_mem hc)
    simp [isWordStart, hc]
  cases x with
  | nil => exact absurd hfold.symm hne
  | cons c cs =>
    obtain ⟨hc, hcs⟩ := List.forall_mem_cons.mp hstart
    have hrest : ∀ d ∈ cs, isWordChar d = true := fun d hd => by simp [isWordChar, hcs d hd]
    simpa [isWord, hc] using hrest

/-! ## Writing a token -/

/-- A kind without a text is that of a newline, a reserved word or a mark. -/
theorem Kind.spelled (kind : Kind) (htext : kind ∉ [.comment, .identifier, .number, .string]) :
    kind = .newline ∨ kind ∈ reserved.map Prod.snd ∨
      some kind ∈
        ['+', '-', '*', '/', '%', '^', '!', '=', '<', '>', '(', ')'].map punctuation? := by
  revert htext
  cases kind <;> decide

/-- A token of the right shape can be written. -/
theorem exists_writtenAs {t : Token} (h : t.isLexical = true) : ∃ x, t.WrittenAs x := by
  obtain ⟨kind, text, p, misfit⟩ := t
  obtain rfl : misfit = none := misfit_eq_none h
  simp only [isLexical, Option.isNone_none, Bool.true_and] at h
  split at h
  · next s => exact ⟨s.toList, by simpa using WrittenAs.name (p := p) h⟩
  · next s => exact ⟨s.toList, by simpa using WrittenAs.number (p := p) h⟩
  · next s => exact ⟨_, by simpa using WrittenAs.string (p := p) h⟩
  · next s => exact ⟨_, by simpa using WrittenAs.comment (p := p) h⟩
  iterate 4 cases h
  · obtain rfl : text = none := by simpa using h
    have htext : kind ∉ [.comment, .identifier, .number, .string] := by simp_all
    obtain rfl | hword | hmark := kind.spelled htext
    · exact ⟨_, .newline⟩
    · obtain ⟨r, hr, rfl⟩ := List.mem_map.mp hword
      have hfold : ∀ r ∈ reserved, r.1.toList.map foldCase = r.1.toList := by decide
      exact ⟨r.1.toList, .word (reserved?_eq_some_iff.mpr ⟨r, hr, rfl, hfold r hr⟩)⟩
    · obtain ⟨c, -, hc⟩ := List.mem_map.mp hmark
      exact ⟨_, .mark hc⟩

/-! ## A lexeme makes its token -/

/-- What follows does not belong to the lexeme of the token. -/
def Stops (t : Token) (rest : List Char) : Prop :=
  if t.kind = .comment then rest = [] ∨ rest.head? = some '\n'
  else Parted rest ∧ rest.head? ≠ some '/'

theorem Stops.nil (t : Token) : Stops t [] := by
  unfold Stops
  split
  · exact .inl rfl
  · exact ⟨fun _ h => (nomatch h), by simp⟩

theorem Stops.parted {t : Token} {rest : List Char} (h : Stops t rest) (ht : t.kind ≠ .comment) :
    Parted rest ∧ rest.head? ≠ some '/' := by
  simpa only [Stops, if_neg ht] using h

theorem punctuation?_ne_comment (c : Char) : punctuation? c ≠ some .comment := by
  intro h
  unfold punctuation? at h
  split at h <;> cases h

/-- A lexeme in front of a text that does not belong to it makes its token. -/
theorem WrittenAs.lexes {t : Token} {x rest : List Char} {ts : List Token} (h : t.WrittenAs x)
    (hstops : Stops t rest) (hnext : Lexes rest ts) : Lexes (x ++ rest) (t.bare :: ts) := by
  cases h with
  | newline => exact hnext.newline
  | comment hs => exact hnext.comment hs hstops
  | string hs =>
    rw [List.cons_append, List.append_assoc]
    exact hnext.string hs
  | number hx => exact hnext.number hx hstops.1
  | name hx => exact hnext.name hx hstops.1
  | word hx =>
    have hkind := fun h => reserved?_ne_comment _ (hx.trans (congrArg some h))
    exact hnext.keyword (isWord_of_reserved? hx) hx (hstops.parted hkind).1
  | mark hc =>
    have hkind := fun h => punctuation?_ne_comment _ (hc.trans (congrArg some h))
    exact hnext.mark hc (.inr (hstops.parted hkind).2)

theorem Lexes.unique {cs : List Char} {ts us : List Token} (h : Lexes cs ts) (h' : Lexes cs us) :
    ts = us := by
  obtain ⟨vs, hscan, rfl⟩ := h.scanFrom ⟨1, 1⟩
  obtain ⟨ws, hscan', rfl⟩ := h'.scanFrom ⟨1, 1⟩
  rw [hscan] at hscan'
  cases hscan'
  rfl

/-- A lexeme determines its token, whose place is left out. -/
theorem WrittenAs.bare_eq {t u : Token} {x : List Char} (h : t.WrittenAs x)
    (h' : u.WrittenAs x) : u.bare = t.bare := by
  have hsame := (h'.lexes (Stops.nil u) .nil).unique (h.lexes (Stops.nil t) .nil)
  exact (List.cons.inj hsame).1

/-- The shape of names and reserved words: a word, maybe behind a colon. -/
def isNameShaped : List Char → Bool
  | ':' :: cs => isWord cs
  | cs => isWord cs

theorem isNameShaped_iff {x : List Char} :
    isNameShaped x = true ↔ isNameText x = true ∨ ∃ kind, reserved? x = some kind := by
  by_cases hcolon : ∃ w, x = ':' :: w
  · obtain ⟨w, rfl⟩ := hcolon
    refine ⟨.inl, ?_⟩
    rintro (h | ⟨kind, h⟩)
    · exact h
    · have hfree := colon_not_mem_of_isWord (isWord_of_reserved? h)
      exact absurd List.mem_cons_self hfree
  · have hshaped : isNameShaped x = isWord x := by
      unfold isNameShaped
      split
      · exact absurd ⟨_, rfl⟩ hcolon
      · rfl
    have hname : isNameText x = (isWord x && (reserved? x).isNone) := by
      unfold isNameText
      split
      · exact absurd ⟨_, rfl⟩ hcolon
      · rfl
    rw [hshaped, hname]
    cases hword : reserved? x with
    | none => simp
    | some kind => simp [isWord_of_reserved? hword]

/-- Of the lexemes that look like names, exactly those without a colon that are the word in
    some letter case make the token of a reserved word. -/
theorem WrittenAs.kind_eq_reserved_iff {t : Token} {x : List Char} (h : t.WrittenAs x)
    (hx : isNameShaped x = true) {r : String × Kind} (hr : r ∈ reserved) :
    t.kind = r.2 ↔ ':' ∉ x ∧ x.map foldCase = r.1.toList := by
  have hkind {u : Token} (hu : u.WrittenAs x) : t.kind = u.kind :=
    (Token.mk.inj (hu.bare_eq h)).1
  constructor
  · intro hsame
    rcases isNameShaped_iff.mp hx with hname | ⟨kind, hword⟩
    · have hall : ∀ r ∈ reserved, r.2 ≠ .identifier := by decide
      exact absurd (hsame.symm.trans (hkind (.name (p := t.position) hname))) (hall r hr)
    · obtain ⟨a, ha, hakind, hfold⟩ := reserved?_eq_some_iff.mp hword
      have hunique : ∀ a ∈ reserved, ∀ b ∈ reserved, a.2 = b.2 → a = b := by decide
      have hword' := hkind (.word (p := t.position) hword)
      obtain rfl : a = r := hunique a ha r hr (hakind.trans (hword'.symm.trans hsame))
      exact ⟨colon_not_mem_of_isWord (isWord_of_reserved? hword), hfold⟩
  · rintro ⟨-, hfold⟩
    exact hkind (.word (p := t.position) (reserved?_eq_some_iff.mpr ⟨r, hr, rfl, hfold⟩))

theorem WrittenAs.slash_inv {t : Token} {x : List Char} (h : t.WrittenAs x)
    (hkind : t.kind = .slash) : x = ['/'] := by
  cases h with
  | newline | comment | string | number | name => cases hkind
  | word hx => exact absurd (hx.trans (congrArg some hkind)) (reserved?_ne (by decide) _)
  | mark hc =>
    unfold punctuation? at hc
    split at hc <;> cases hc <;> first | rfl | cases hkind

/-! ## The longest lexeme -/

theorem length_le_takeWhile {p : Char → Bool} {as : List Char} (h : ∀ c ∈ as, p c = true)
    (bs : List Char) : as.length ≤ ((as ++ bs).takeWhile p).length := by
  rw [List.takeWhile_append_of_pos h, List.length_append]
  exact Nat.le_add_right ..

theorem takeWhile_le_numeralLength (cs : List Char) :
    (cs.takeWhile isNumeral).length ≤ numeralLength cs := by
  rw [numeralLength]
  split
  · simp only
    split <;> omega
  · exact Nat.le_refl _

theorem fraction_le_numeralLength {ds places : List Char} (hds : ∀ d ∈ ds, isNumeral d = true)
    (hplaces : ∀ d ∈ places, isNumeral d = true) (hne : places ≠ []) (cs : List Char) :
    (ds ++ '.' :: places).length ≤ numeralLength (ds ++ '.' :: (places ++ cs)) := by
  have hpoint : ∀ c, ('.' :: (places ++ cs)).head? = some c → isNumeral c = false := by
    intro c hc
    cases hc
    rfl
  have hlength := length_le_takeWhile hplaces cs
  have hpositive : 0 < places.length := List.length_pos_iff.mpr hne
  rw [numeralLength, takeWhile_numerals hds hpoint, List.drop_left]
  simp only [List.length_append, List.length_cons]
  split <;> omega

theorem head?_any_of_isWord {w : List Char} (h : isWord w = true) (rest : List Char) :
    (w ++ rest).head?.any isWordStart = true := by
  match w with
  | c :: w => simp_all [isWord]

/-- A word is no longer than the lexeme that starts with it. -/
theorem length_le_of_isWord {y rest cs : List Char} {c : Char} {l : Lexeme}
    (h : isWord y = true) (hsplit : c :: cs = y ++ rest) (hlexeme : lexeme? c cs = some l) :
    y.length ≤ l.more + 1 := by
  match y with
  | d :: y =>
    obtain ⟨rfl, rfl⟩ := List.cons.inj hsplit
    obtain ⟨hc, hy⟩ : isWordStart c = true ∧ y.all isWordChar = true := by
      simpa [isWord] using h
    rw [lexeme?_word hc] at hlexeme
    cases hlexeme
    exact Nat.succ_le_succ (length_le_takeWhile (List.all_eq_true.mp hy) rest)

/-- Where a lexeme of any token starts, the one that is taken is as long at least. -/
theorem WrittenAs.length_le {u : Token} {y rest cs : List Char} {c : Char} {l : Lexeme}
    (h : u.WrittenAs y) (hsplit : c :: cs = y ++ rest) (hlexeme : lexeme? c cs = some l) :
    y.length ≤ l.more + 1 := by
  cases h with
  | newline => exact Nat.le_add_left 1 _
  | @comment s _ hs =>
    obtain ⟨rfl, rfl⟩ := List.cons.inj hsplit
    rw [List.append_eq, List.cons_append, lexeme?_comment] at hlexeme
    cases hlexeme
    have hlength := length_le_takeWhile (List.all_eq_true.mp hs) rest
    simp only [List.length_cons]
    omega
  | @string s _ hs =>
    obtain ⟨rfl, rfl⟩ := List.cons.inj hsplit
    rw [List.append_eq, List.append_assoc, List.cons_append, List.nil_append,
      lexeme?_string hs] at hlexeme
    cases hlexeme
    simp
  | number hy =>
    obtain ⟨d, ds, hd, hds, rfl | ⟨places, rfl, hne, hplaces⟩⟩ := isNumberText_cases hy
    · obtain ⟨rfl, rfl⟩ := List.cons.inj hsplit
      rw [lexeme?_numeral hd] at hlexeme
      cases hlexeme
      have hwhole := length_le_takeWhile hds rest
      exact Nat.succ_le_succ (hwhole.trans (takeWhile_le_numeralLength _))
    · obtain ⟨rfl, rfl⟩ := List.cons.inj hsplit
      rw [lexeme?_numeral hd] at hlexeme
      cases hlexeme
      have hfraction := fraction_le_numeralLength hds hplaces hne rest
      rw [List.append_eq, List.append_assoc]
      exact Nat.succ_le_succ hfraction
  | name hy =>
    unfold isNameText at hy
    split at hy
    · next w =>
      obtain ⟨rfl, rfl⟩ := List.cons.inj hsplit
      have hstart : (w ++ rest).head?.any isWordStart = true := head?_any_of_isWord hy rest
      rw [List.append_eq, lexeme?_colon hstart] at hlexeme
      cases hlexeme
      exact Nat.succ_le_succ (length_le_takeWhile (isWordChar_of_isWord hy) rest)
    · exact length_le_of_isWord (Bool.and_eq_true_iff.mp hy).1 hsplit hlexeme
  | word hy => exact length_le_of_isWord (isWord_of_reserved? hy) hsplit hlexeme
  | mark => exact Nat.le_add_left 1 _

end Yolol.Token

-- SUMMARY: Text is scanned line by line: no lexeme goes past a newline.
import Yolol.Proofs.Scanning

/-!
# Lines of text

What follows a newline has no say in what stands in front of it: every lexeme ends
before the next newline, and it is the same one if the text ends there. So the tokens of
a text are those of its lines, with the token of a newline between two of them.
-/

namespace Yolol.Token

/-! ## Lexemes and newlines -/

theorem takeWhile_append_newline {p : Char → Bool} (hp : p '\n' = false) (cs ds : List Char) :
    (cs ++ '\n' :: ds).takeWhile p = cs.takeWhile p := by
  induction cs with
  | nil => simp [hp]
  | cons c cs ih =>
    cases hc : p c with
    | true => simp [hc, ih]
    | false => simp [hc]

theorem length_takeWhile_le {p : Char → Bool} (cs : List Char) :
    (cs.takeWhile p).length ≤ cs.length :=
  (List.takeWhile_prefix p).length_le

theorem numeralLength_append_newline (cs ds : List Char) :
    numeralLength (cs ++ '\n' :: ds) = numeralLength cs := by
  have hwhole := length_takeWhile_le (p := isNumeral) cs
  have hsame := takeWhile_append_newline (p := isNumeral) rfl
  rw [numeralLength, numeralLength, hsame, List.drop_append_of_le_length hwhole]
  cases hrest : cs.drop (cs.takeWhile isNumeral).length with
  | nil => rfl
  | cons c rest =>
    by_cases hpoint : c = '.'
    · subst hpoint
      simp only [List.cons_append, hsame]
    · simp [hpoint]

theorem numeralLength_le (cs : List Char) : numeralLength cs ≤ cs.length := by
  have hwhole := length_takeWhile_le (p := isNumeral) cs
  rw [numeralLength]
  split
  · next rest hrest =>
    have hlength := congrArg List.length hrest
    have hfraction := length_takeWhile_le (p := isNumeral) rest
    simp only [List.length_drop, List.length_cons] at hlength
    simp only
    split <;> omega
  · exact hwhole

/-- A lexeme ends within the text. -/
theorem more_le_of_lexeme? {c : Char} {cs : List Char} {l : Lexeme} (h : lexeme? c cs = some l) :
    l.more ≤ cs.length := by
  unfold lexeme? at h
  split at h
  · cases h; exact Nat.zero_le _
  split at h
  · cases h; exact Nat.zero_le _
  split at h
  · next hslash =>
    cases h
    obtain ⟨ds, rfl⟩ := List.head?_eq_some_iff.mp hslash.2
    have hbody := length_takeWhile_le (p := (· != '\n')) ds
    simp only [List.drop_succ_cons, List.drop_zero, List.length_cons]
    omega
  split at h
  · simp only at h
    split at h
    · next hquote =>
      cases h
      exact (List.getElem?_eq_some_iff.mp hquote).1
    · cases h
  split at h
  · cases h
    exact numeralLength_le cs
  split at h
  · simp only at h
    split at h <;> cases h <;> exact length_takeWhile_le cs
  split at h
  · split at h <;> cases h
    exact length_takeWhile_le cs
  · obtain ⟨kind, -, rfl⟩ := Option.map_eq_some_iff.mp h
    exact Nat.zero_le _

/-- What follows a newline has no say in the lexeme that starts in front of it. -/
theorem lexeme?_append_newline (c : Char) (cs ds : List Char) :
    lexeme? c (cs ++ '\n' :: ds) = lexeme? c cs := by
  have hhead (d : Char) (hd : d ≠ '\n') :
      (cs ++ '\n' :: ds).head? = some d ↔ cs.head? = some d := by
    cases cs <;> simp [hd.symm]
  have hcomment (hslash : cs.head? = some '/') :
      ((cs ++ '\n' :: ds).drop 1).takeWhile (· != '\n') = (cs.drop 1).takeWhile (· != '\n') := by
    obtain ⟨es, rfl⟩ := List.head?_eq_some_iff.mp hslash
    exact takeWhile_append_newline rfl es ds
  have hquote {n : Nat} (hn : n ≤ cs.length) :
      (cs ++ '\n' :: ds)[n]? = some '\x22' ↔ cs[n]? = some '\x22' := by
    rcases Nat.lt_or_eq_of_le hn with hlt | rfl
    · rw [List.getElem?_append_left hlt]
    · simp
  have hany : (cs ++ '\n' :: ds).head?.any isWordStart = cs.head?.any isWordStart := by
    cases cs <;> rfl
  by_cases hslash : c = '/' ∧ cs.head? = some '/'
  · simp only [lexeme?, hhead '/' (by decide), hslash, and_self, if_true, hcomment hslash.2]
  · simp only [lexeme?, hhead '/' (by decide), hslash, if_false, hany,
      takeWhile_append_newline (p := fun d => d != '\x22' && d != '\n') rfl,
      takeWhile_append_newline (p := isWordChar) rfl, hquote (length_takeWhile_le cs),
      numeralLength_append_newline, List.take_append_of_le_length (numeralLength_le cs)]

/-! ## Tokens of lines -/

/-- The token of a newline, without its place. -/
def lineBreak : Token := { kind := .newline }

/-- The tokens of two texts with a newline between them. -/
theorem Lexes.append {cs ds : List Char} {ts us : List Token} (h : Lexes cs ts)
    (hnext : Lexes ds us) : Lexes (cs ++ '\n' :: ds) (ts ++ lineBreak :: us) := by
  induction h with
  | nil => exact hnext.newline
  | @cons c cs l ts hlexeme _ ih =>
    have hmore := more_le_of_lexeme? hlexeme
    rw [List.cons_append, List.append_assoc]
    refine .cons ((lexeme?_append_newline c cs ds).trans hlexeme) ?_
    rwa [List.drop_append_of_le_length hmore]

/-- Text with a newline in it is scanned as what stands in front of the newline and what
    follows it. -/
theorem Lexes.append_inv {cs ds : List Char} {ts : List Token}
    (h : Lexes (cs ++ '\n' :: ds) ts) :
    ∃ us vs, ts = us ++ lineBreak :: vs ∧ Lexes cs us ∧ Lexes ds vs := by
  -- A lexeme may be taken from the middle of `cs`, so the induction is on its length.
  induction hn : cs.length using Nat.strongRecOn generalizing cs ts with
  | ind n ih =>
    cases cs with
    | nil =>
      cases h with
      | @cons _ _ _ ts hlexeme hnext =>
        cases hlexeme
        exact ⟨[], ts, rfl, .nil, hnext⟩
    | cons c cs =>
      cases h with
      | @cons _ _ l ts hlexeme hnext =>
        rw [List.append_eq] at hnext
        replace hlexeme := (lexeme?_append_newline c cs ds).symm.trans hlexeme
        rw [List.drop_append_of_le_length (more_le_of_lexeme? hlexeme)] at hnext
        have hshorter : (cs.drop l.more).length < n := by
          simp only [← hn, List.length_drop, List.length_cons]
          omega
        obtain ⟨us, vs, rfl, hus, hvs⟩ := ih _ hshorter hnext rfl
        exact ⟨_, vs, (List.append_assoc ..).symm, .cons hlexeme hus, hvs⟩

theorem WrittenAs.newline_inv {t : Token} {x : List Char} (h : t.WrittenAs x)
    (hkind : t.kind = .newline) : x = ['\n'] := by
  cases h with
  | newline => rfl
  | comment | string | number | name => cases hkind
  | word hx => exact absurd (hx.trans (congrArg some hkind)) (reserved?_ne (by decide) _)
  | mark hc =>
    unfold punctuation? at hc
    split at hc <;> cases hc <;> cases hkind

/-- Only a newline makes the token of one. -/
theorem newline_of_lexeme? {c : Char} {cs : List Char} {l : Lexeme} {text : Option String}
    (h : lexeme? c cs = some l) (hnewline : l.token = some (.newline, text)) : c = '\n' := by
  rcases writtenAs_of_lexeme? h with ⟨-, rfl⟩ | ⟨kind, text, htoken, hwritten⟩
  · cases hnewline
  · obtain rfl : kind = .newline := by
      rw [htoken] at hnewline
      cases hnewline
      rfl
    exact (List.cons.inj ((hwritten ⟨0, 0⟩).newline_inv rfl)).1

theorem Lexes.no_newline {cs : List Char} {ts : List Token} (h : Lexes cs ts)
    (hcs : '\n' ∉ cs) : ∀ t ∈ ts, t.kind ≠ .newline := by
  induction h with
  | nil => simp
  | @cons c cs l ts hlexeme _ ih =>
    have hrest : '\n' ∉ cs.drop l.more := fun h => hcs (.tail _ (List.mem_of_mem_drop h))
    refine List.forall_mem_append.mpr ⟨fun t ht hkind => ?_, ih hrest⟩
    unfold Lexeme.tokens at ht
    split at ht
    · cases ht
    · next kind text htoken =>
      obtain rfl := List.mem_singleton.mp ht
      obtain rfl : kind = .newline := hkind
      exact hcs (newline_of_lexeme? hlexeme htoken ▸ List.mem_cons_self)

/-- The lines of a text without their newlines. What follows the last newline counts as a
    line, even if there is nothing. -/
def pieces (source : String) : List String := (source.toList.splitOn '\n').map String.ofList

end Yolol.Token

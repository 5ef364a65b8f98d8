-- SUMMARY: Reading JSON text into a value.
import Yolol.Json
import Yolol.Number.Literal
import Yolol.Store

/-!
# Reading JSON

The whole text has to be one value, with blanks around it. Besides the standard
there are the words for the doubles that have no numeral. Of a key that occurs twice
the last value counts. Controls may not stand in a string.
-/

namespace Yolol.Json

/-- Why text is no JSON. -/
inductive ReadFault where
  | malformed
  /-- A whole number with too many digits. -/
  | tooLong (count : Nat)
  deriving DecidableEq

/-- Something read from the front of `n` characters, and what is left of them. -/
structure Front (α : Type) (n : Nat) where
  value : α
  rest : List Char
  fewer : rest.length < n

def Front.map {α β : Type} {n : Nat} (f : α → β) (r : Front α n) : Front β n :=
  ⟨f r.value, r.rest, r.fewer⟩

def Front.widen {α : Type} {m n : Nat} (h : m ≤ n) (r : Front α m) : Front α n :=
  ⟨r.value, r.rest, Nat.lt_of_lt_of_le r.fewer h⟩

def isGap (c : Char) : Bool := c == ' ' || c == '\t' || c == '\n' || c == '\r'

def skipGap (cs : List Char) : List Char := cs.dropWhile isGap

theorem length_skipGap_le (cs : List Char) : (skipGap cs).length ≤ cs.length :=
  (List.dropWhile_sublist isGap).length_le

/-- A character found behind a gap leaves fewer characters. -/
theorem length_lt_of_skipGap {cs rest : List Char} {d : Char} (h : skipGap cs = d :: rest) :
    rest.length < cs.length := by
  have bound := length_skipGap_le cs
  rw [h] at bound
  exact bound

def isNumeral (c : Char) : Bool := '0' ≤ c && c ≤ '9'

-- ---------------------------------------------------------------------------
-- Strings
-- ---------------------------------------------------------------------------

def hexValue? (c : Char) : Option Nat :=
  if '0' ≤ c && c ≤ '9' then some (c.toNat - 48)
  else if 'a' ≤ c && c ≤ 'f' then some (c.toNat - 87)
  else if 'A' ≤ c && c ≤ 'F' then some (c.toNat - 55)
  else none

/-- The unit that four hexadecimal digits denote. -/
def unit? (a b c d : Char) : Option Nat := do
  let a ← hexValue? a
  let b ← hexValue? b
  let c ← hexValue? c
  let d ← hexValue? d
  pure (((a * 16 + b) * 16 + c) * 16 + d)

def isHighUnit (n : Nat) : Bool := 0xd800 ≤ n && n < 0xdc00
def isLowUnit (n : Nat) : Bool := 0xdc00 ≤ n && n < 0xe000

/-- The character of a unit that stands alone. Half of a pair stands for none. -/
def ofUnit (n : Nat) : Char := if isHighUnit n || isLowUnit n then '\ufffd' else Char.ofNat n

/-- The character that a single letter behind a backslash denotes. -/
def simpleEscape? : Char → Option Char
  | '\x22' => some '\x22'
  | '\\' => some '\\'
  | '/' => some '/'
  | 'b' => some '\x08'
  | 'f' => some '\x0c'
  | 'n' => some '\n'
  | 'r' => some '\r'
  | 't' => some '\t'
  | _ => none

/-- The low half of a pair, if one stands here as an escape of its own. -/
def lowUnit? : List Char → Option Nat
  | '\\' :: 'u' :: a :: b :: c :: d :: _ => (unit? a b c d).filter isLowUnit
  | _ => none

/-- The character of an escape behind its backslash; two halves make one character. -/
def escaped? : (cs : List Char) → Option (Front Char cs.length)
  | 'u' :: a :: b :: c :: d :: rest =>
    match unit? a b c d with
    | none => none
    | some high =>
      match if isHighUnit high then lowUnit? rest else none with
      | none => some ⟨ofUnit high, rest, by simp only [List.length_cons]; omega⟩
      | some low =>
        some ⟨Char.ofNat (0x10000 + (high - 0xd800) * 0x400 + (low - 0xdc00)), rest.drop 6,
          by simp only [List.length_cons, List.length_drop]; omega⟩
  | c :: rest => (simpleEscape? c).map fun d => ⟨d, rest, Nat.lt_succ_self _⟩
  | [] => none

/-- The rest of a string up to its closing quote. -/
def string? : (cs : List Char) → Option (Front (List Char) cs.length)
  | [] => none
  | c :: cs =>
    if c = '\x22' then some ⟨[], cs, Nat.lt_succ_self _⟩
    else if c = '\\' then
      match escaped? cs with
      | none => none
      | some ⟨d, rest, h⟩ =>
        (string? rest).map fun r =>
          (r.map (d :: ·)).widen (Nat.le_succ_of_le (Nat.le_of_lt h))
    else if c.toNat < 0x20 then none
    else (string? cs).map fun r => (r.map (c :: ·)).widen (Nat.le_succ _)
termination_by cs => cs.length

-- ---------------------------------------------------------------------------
-- Numbers
-- ---------------------------------------------------------------------------

/-- The digits of a fraction, if a digit follows the point. -/
def fraction (cs : List Char) : List Char :=
  match cs with
  | '.' :: rest => rest.takeWhile isNumeral
  | _ => []

/-- The sign and the digits of an exponent, if a digit follows. -/
def exponent (cs : List Char) : Option (List Char × List Char) :=
  match cs with
  | e :: rest =>
    if e == 'e' || e == 'E' then
      let sign := rest.take 1 |>.filter fun c => c == '+' || c == '-'
      let digits := (rest.drop sign.length).takeWhile isNumeral
      if digits.isEmpty then none else some (sign, digits)
    else none
  | [] => none

def natOf (digits : List Char) : Nat := Decimal.value (digits.map fun c => c.toNat - 48)

/-- The bits of the double nearest to a decimal with a fraction and an exponent. -/
def doubleOf (negative : Bool) (whole places : List Char) (power : Int) : UInt64 :=
  let shift := power - places.length
  let magnitude := Float.ofScientific (natOf (whole ++ places)) (shift < 0) shift.natAbs
  (if negative then -magnitude else magnitude).toBits

/-- The whole part of a number: a zero, or digits that do not start with one. -/
def wholePart (cs : List Char) : List Char :=
  match cs with
  | '0' :: _ => ['0']
  | cs => cs.takeWhile isNumeral

theorem length_drop_wholePart_lt (cs : List Char) (h : (wholePart cs).isEmpty = false) :
    (cs.drop (wholePart cs).length).length < cs.length := by
  cases cs with
  | nil => simp [wholePart] at h
  | cons c cs =>
    have : 0 < (wholePart (c :: cs)).length := by
      cases hw : wholePart (c :: cs) <;> simp_all
    simp only [List.length_drop, List.length_cons]
    omega

/-- A number without its sign. -/
def number (negative : Bool) (cs : List Char) : Except ReadFault (Front Json cs.length) :=
  let whole := wholePart cs
  if h : whole.isEmpty then .error .malformed
  else
    have bound := length_drop_wholePart_lt cs (by simpa using h)
    let rest := cs.drop whole.length
    let places := fraction rest
    let rest := rest.drop (if places.isEmpty then 0 else places.length + 1)
    match exponent rest with
    | none =>
      if !places.isEmpty then
        .ok ⟨.float (doubleOf negative whole places 0), rest, by grind⟩
      else if Number.maxDigits < whole.length then .error (.tooLong whole.length)
      else .ok ⟨.int (if negative then -natOf whole else natOf whole), rest, by grind⟩
    | some (sign, digits) =>
      let power : Int := if sign.contains '-' then -natOf digits else natOf digits
      .ok ⟨.float (doubleOf negative whole places power),
        rest.drop (1 + sign.length + digits.length), by grind⟩

-- ---------------------------------------------------------------------------
-- Values
-- ---------------------------------------------------------------------------

/-- The values that are written as a word. -/
def words : List (String × Json) :=
  [("null", .null), ("true", .bool true), ("false", .bool false),
   ("NaN", .float 0x7ff8000000000000), ("Infinity", .float 0x7ff0000000000000),
   ("-Infinity", .float 0xfff0000000000000)]

/-- The word that starts here. -/
def word? (cs : List Char) : Option (String × Json) :=
  words.find? fun w => w.1.toList.isPrefixOf cs

mutual
/-- A value that starts at the first character. -/
def value : (cs : List Char) → Except ReadFault (Front Json cs.length)
  | [] => .error .malformed
  | c :: cs =>
    if c = '\x22' then
      match string? cs with
      | none => .error .malformed
      | some r => .ok ((r.map fun s => .str (String.ofList s)).widen (Nat.le_succ _))
    else if c = '[' then
      match h : skipGap cs with
      | [] => .error .malformed
      | d :: rest =>
        have bound := length_lt_of_skipGap h
        if d = ']' then .ok ⟨.arr [], rest, Nat.lt_succ_of_lt bound⟩
        else
          match items (d :: rest) with
          | .error e => .error e
          | .ok r => .ok ((r.map .arr).widen (Nat.le_succ_of_le bound))
    else if c = '\x7b' then
      match h : skipGap cs with
      | [] => .error .malformed
      | d :: rest =>
        have bound := length_lt_of_skipGap h
        if d = '\x7d' then .ok ⟨.obj [], rest, Nat.lt_succ_of_lt bound⟩
        else
          match members [] (d :: rest) with
          | .error e => .error e
          | .ok r => .ok ((r.map .obj).widen (Nat.le_succ_of_le bound))
    else
      match word? (c :: cs) with
      | some (w, j) =>
        .ok ⟨j, cs.drop (w.length - 1), by simp only [List.length_cons, List.length_drop]; omega⟩
      | none =>
        if c = '-' then
          match number true cs with
          | .error e => .error e
          | .ok r => .ok (r.widen (Nat.le_succ _))
        else number false (c :: cs)
termination_by cs => 2 * cs.length
decreasing_by all_goals simp only [List.length_cons]; omega

/-- The items of an array up to its closing bracket. -/
def items (cs : List Char) : Except ReadFault (Front (List Json) cs.length) :=
  match value cs with
  | .error e => .error e
  | .ok ⟨j, rest, h⟩ =>
    match h' : skipGap rest with
    | [] => .error .malformed
    | d :: rest' =>
      have bound := length_lt_of_skipGap h'
      if d = ']' then .ok ⟨[j], rest', by omega⟩
      else if d = ',' then
        have bound' := length_skipGap_le rest'
        match items (skipGap rest') with
        | .error e => .error e
        | .ok r => .ok ((r.map (j :: ·)).widen (by omega))
      else .error .malformed
termination_by 2 * cs.length + 1
decreasing_by all_goals omega

/-- The fields of an object up to its closing brace; `fields` have been read. -/
def members (fields : List (String × Json)) (cs : List Char) :
    Except ReadFault (Front (List (String × Json)) cs.length) :=
  match cs with
  | [] => .error .malformed
  | c :: cs =>
    if c = '\x22' then
      match string? cs with
      | none => .error .malformed
      | some ⟨key, rest, hs⟩ =>
        match h : skipGap rest with
        | [] => .error .malformed
        | d :: rest' =>
          have bound := length_lt_of_skipGap h
          if d = ':' then
            have boundValue := length_skipGap_le rest'
            match value (skipGap rest') with
            | .error e => .error e
            | .ok ⟨j, rest₂, h₂⟩ =>
              let fields := Store.place (String.ofList key) j fields
              match h₃ : skipGap rest₂ with
              | [] => .error .malformed
              | d₃ :: rest₃ =>
                have bound₃ := length_lt_of_skipGap h₃
                if d₃ = '\x7d' then
                  .ok ⟨fields, rest₃, by simp only [List.length_cons]; omega⟩
                else if d₃ = ',' then
                  have bound₄ := length_skipGap_le rest₃
                  match members fields (skipGap rest₃) with
                  | .error e => .error e
                  | .ok r => .ok (r.widen (by simp only [List.length_cons]; omega))
                else .error .malformed
          else .error .malformed
    else .error .malformed
termination_by 2 * cs.length + 1
decreasing_by all_goals simp only [List.length_cons]; omega
end

/-- The value that a text spells. -/
def ofText (text : String) : Except ReadFault Json :=
  match value (skipGap text.toList) with
  | .error e => .error e
  | .ok r => if (skipGap r.rest).isEmpty then .ok r.value else .error .malformed

end Yolol.Json

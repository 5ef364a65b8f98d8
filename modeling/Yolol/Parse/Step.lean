-- SUMMARY: The outcome of a grammar rule, with a bound on the tokens it leaves.
import Yolol.Parse.Fault

/-!
# Steps

A rule reads from the front of a list of tokens. Its outcome carries the tokens
that are left together with the proof that they are fewer, which is what makes the
recursion of the grammar end.
-/

namespace Yolol.Parse

/-- A rule that started to read `n` tokens: it found something and left fewer of them,
    or it failed. -/
inductive Step (φ α : Type) (n : Nat) where
  | found (value : α) (rest : List Token) (fewer : rest.length < n)
  | failed (failure : Failure φ) (rest : List Token) (within : rest.length ≤ n)

/-- What a rule makes of `n` tokens; `none` if it does not start there, and then it
    reads nothing. -/
abbrev Attempt (φ α : Type) (n : Nat) := Option (Step φ α n)

theorem length_drop_lt_cons (t : Token) (ts : List Token) (n : Nat) :
    (ts.drop n).length < (t :: ts).length := by
  simp only [List.length_drop, List.length_cons]
  omega

namespace Step

variable {φ α β : Type}

/-- The value of the single token `t`. -/
def ofToken (value : α) (t : Token) (rest : List Token) : Step φ α (t :: rest).length :=
  .found value rest (Nat.lt_succ_self _)

/-- Fail before anything is read. -/
def stuck (failure : Failure φ) (ts : List Token) : Step φ α ts.length :=
  .failed failure ts (Nat.le_refl _)

/-- Read the step as one that started earlier. -/
def widen {m n : Nat} (h : m ≤ n) : Step φ α m → Step φ α n
  | .found value rest fewer => .found value rest (Nat.lt_of_lt_of_le fewer h)
  | .failed failure rest within => .failed failure rest (Nat.le_trans within h)

/-- A step that started behind the token `t`, read as one that started at it. -/
def behind (t : Token) {ts : List Token} (s : Step φ α ts.length) : Step φ α (t :: ts).length :=
  s.widen (Nat.le_succ _)

def map {n : Nat} (f : α → β) : Step φ α n → Step φ β n
  | .found value rest fewer => .found (f value) rest fewer
  | .failed failure rest within => .failed failure rest within

/-- The result and the tokens that are left. -/
def result {n : Nat} : Step φ α n → Except (Failure φ) α × List Token
  | .found value rest _ => (.ok value, rest)
  | .failed failure rest _ => (.error failure, rest)

end Step

end Yolol.Parse

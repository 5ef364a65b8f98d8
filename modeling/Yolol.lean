import Yolol.Main
import Yolol.Parse.ReadBack
import Yolol.Proofs.Arithmetic
import Yolol.Proofs.CanonicalText
import Yolol.Proofs.CompoundAssignment
import Yolol.Proofs.CursorDiscipline
import Yolol.Proofs.DocumentRoundTrip
import Yolol.Proofs.EqualityOperators
import Yolol.Proofs.Factorial
import Yolol.Proofs.FailingLine
import Yolol.Proofs.Fragments
import Yolol.Proofs.Frame
import Yolol.Proofs.Layout
import Yolol.Proofs.LexFaults
import Yolol.Proofs.LineByLine
import Yolol.Proofs.LineOutcome
import Yolol.Proofs.Observation
import Yolol.Proofs.ProgramRoundTrip
import Yolol.Proofs.Remainder
import Yolol.Proofs.StoredValues
import Yolol.Proofs.Tracing
import Yolol.Run.Session

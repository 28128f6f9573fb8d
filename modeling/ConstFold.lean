import ConstFold.Interchange.Decode
import ConstFold.Json.Text
import ConstFold.Proofs.AbsorbedOperands
import ConstFold.Proofs.AbsorbedTypes
import ConstFold.Proofs.CastMinimality
import ConstFold.Proofs.CastRemoval
import ConstFold.Proofs.Concatenation
import ConstFold.Proofs.ConstantFolding
import ConstFold.Proofs.ConstantOperators
import ConstFold.Proofs.DecimalText
import ConstFold.Proofs.ExactRounding
import ConstFold.Proofs.ExchangedTypes
import ConstFold.Proofs.Idempotence
import ConstFold.Proofs.InferredTypes
import ConstFold.Proofs.Interchange
import ConstFold.Proofs.Purity
import ConstFold.Proofs.ReferenceOperands
import ConstFold.Proofs.Soundness.Absorption
import ConstFold.Proofs.Soundness.DivisionReports
import ConstFold.Proofs.Soundness.Exchange
import ConstFold.Proofs.Source.Literals
import ConstFold.Proofs.Source.Printing
import ConstFold.Proofs.Source.Signs
import ConstFold.Proofs.Subtyping
import ConstFold.Proofs.TypePreservation
import ConstFold.Reference
import ConstFold.Session
import ConstFold.Settings.Reader

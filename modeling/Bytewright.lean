import Bytewright.Main
import Bytewright.Proofs.Code.SelfDelimiting
import Bytewright.Proofs.Equality.FiniteMap
import Bytewright.Proofs.Generator.Compose
import Bytewright.Proofs.Generator.Frame
import Bytewright.Proofs.Generator.Pipeline
import Bytewright.Proofs.Generator.Safety
import Bytewright.Proofs.Generator.Script
import Bytewright.Proofs.Inversion.Call
import Bytewright.Proofs.Machine.Arithmetic
import Bytewright.Proofs.Machine.Ledger
import Bytewright.Proofs.Machine.Range
import Bytewright.Proofs.Machine.Slots
import Bytewright.Proofs.Region.Loop
import Bytewright.Proofs.Region.Squash
import Bytewright.Proofs.Scope.Call
import Bytewright.Proofs.Scope.Specification
import Bytewright.Proofs.Source.Constant
import Bytewright.Proofs.Source.Tallest
import Bytewright.Proofs.Stream.LineLookup
import Bytewright.Proofs.Tracing.Nested
import Bytewright.Source.Form

import Gauge.Main
import Gauge.Proofs.Syntax.RoundTrip
import Gauge.Proofs.Typed.Ranges
import Gauge.Proofs.Cast.Shortest
import Gauge.Proofs.Code.Flow
import Gauge.Proofs.Module.Ranged
import Gauge.Proofs.Unambiguous
import Gauge.Proofs.Module.Symbols
import Gauge.Proofs.Module.Order
import Gauge.Proofs.Module.Cycles
import Gauge.Proofs.Token.Rendered
import Gauge.Proofs.Located
import Gauge.Proofs.Registry.Scoped
import Gauge.Proofs.Typed.Negated
import Gauge.Proofs.Typed.Retyped
import Gauge.Proofs.Module.Stores
import Gauge.Proofs.Ty.Letters
import Gauge.Proofs.Module.Widest
import Gauge.Proofs.Module.Raised
import Gauge.Proofs.Range.Narrow
import Gauge.Proofs.Typed.Lightest
import Gauge.Proofs.Ty.Offsets
import Gauge.Proofs.Ty.Structural
import Gauge.Proofs.Code.Numbering
import Gauge.Proofs.Report
import Gauge.Proofs.Weight

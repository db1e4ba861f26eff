import Unboxing.Main
import Unboxing.Proofs.ControlFlow
import Unboxing.Proofs.DeclaredTypes
import Unboxing.Proofs.ListingRoundTrip
import Unboxing.Proofs.ReferenceComparison
import Unboxing.Proofs.ResolvedClasses
import Unboxing.Proofs.SinglePass
import Unboxing.Proofs.Suppression
import Unboxing.Tag.Parser
import Unboxing.Proofs.BranchCoverage
import Unboxing.Proofs.ReportedLimits

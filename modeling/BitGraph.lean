import BitGraph.Diagnostic.Report
import BitGraph.Encoding.Diagnostic
import BitGraph.Encoding.Graph
import BitGraph.Proofs.AlgebraTable
import BitGraph.Proofs.Bits.Bitwise
import BitGraph.Proofs.Bits.Canonicity
import BitGraph.Proofs.Bits.Literals
import BitGraph.Proofs.CircleReports
import BitGraph.Proofs.DiagnosticLines
import BitGraph.Proofs.Edit.Cutting
import BitGraph.Proofs.Edit.Retargeting
import BitGraph.Proofs.Evaluation
import BitGraph.Proofs.LeastOrder
import BitGraph.Proofs.Operation.Inference
import BitGraph.Proofs.Operation.Safety
import BitGraph.Proofs.Proposal.Agreement
import BitGraph.Proofs.Simplify.Convergence
import BitGraph.Proofs.Simplify.Erasure
import BitGraph.Proofs.Simplify.Exhaustion
import BitGraph.Proofs.Simplify.Independence
import BitGraph.Proofs.Simplify.NormalForm
import BitGraph.Proofs.Simplify.Propagation
import BitGraph.Proofs.Simplify.Resuming
import BitGraph.Settings
import BitGraph.Simplify.Audit

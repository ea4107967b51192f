import DisciplinedConvex.Vexity
import DisciplinedConvex.Double
import DisciplinedConvex.Failure
import DisciplinedConvex.Raw
import DisciplinedConvex.Node.Walk
import DisciplinedConvex.Node.Text
import DisciplinedConvex.Node.Value
import DisciplinedConvex.Workspace.Construction
import DisciplinedConvex.Session
import DisciplinedConvex.Model
import DisciplinedConvex.Proofs.Asking
import DisciplinedConvex.Proofs.Convexity
import DisciplinedConvex.Proofs.Epigraph
import DisciplinedConvex.Proofs.Relaxation
import DisciplinedConvex.Proofs.Identities
import DisciplinedConvex.Proofs.Persistence
import DisciplinedConvex.Proofs.Gate
import DisciplinedConvex.Proofs.Sessions
import DisciplinedConvex.Proofs.Columns
import DisciplinedConvex.Proofs.Canonical
import DisciplinedConvex.Proofs.Independence
import DisciplinedConvex.Proofs.Signs
import DisciplinedConvex.Proofs.Ledger
import DisciplinedConvex.Proofs.Cones
import DisciplinedConvex.Proofs.Bridge
import DisciplinedConvex.Proofs.Constancy
import DisciplinedConvex.Proofs.Supply
import DisciplinedConvex.Proofs.Products
import DisciplinedConvex.Proofs.Quotients
import DisciplinedConvex.Proofs.Seating
import DisciplinedConvex.Proofs.Commuting
import DisciplinedConvex.Proofs.Turns
import DisciplinedConvex.Proofs.Accounting
import DisciplinedConvex.Proofs.Finiteness
import DisciplinedConvex.Proofs.Registration
import DisciplinedConvex.Proofs.Affinity
import DisciplinedConvex.Proofs.DepthFirst
import DisciplinedConvex.Proofs.Evaluation
import DisciplinedConvex.Proofs.Stacking
import DisciplinedConvex.Proofs.Sharpening
import DisciplinedConvex.Proofs.Responses

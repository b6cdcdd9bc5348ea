import Drafting.Binary64
import Drafting.Editor.Request
import Drafting.Proofs.Graph.Survival
import Drafting.Proofs.Graph.Convergence
import Drafting.Proofs.Graph.Batches
import Drafting.Proofs.Linear.Solution
import Drafting.Proofs.Formula.Spelling
import Drafting.Proofs.Program.Gradient
import Drafting.Proofs.LeastSquares.Termination
import Drafting.Proofs.Relaxation.Soundness
import Drafting.Proofs.Relaxation.Answer
import Drafting.Proofs.Relaxation.Elimination
import Drafting.Proofs.Dual.Flat
import Drafting.Proofs.Program.Ignored
import Drafting.Proofs.LeastSquares.Normal
import Drafting.Proofs.LeastSquares.Unmoved
import Drafting.Proofs.Relaxation.Unmoved
import Drafting.Proofs.Constraint.Geometry
import Drafting.Proofs.Formula.Printing
import Drafting.Proofs.LeastSquares.Uniform
import Drafting.Proofs.Program.Reordered
import Drafting.Proofs.Graph.Indivisible
import Drafting.Proofs.Graph.Linked
import Drafting.Proofs.Graph.EdgeNames
import Drafting.Proofs.Relaxation.Agreement
import Drafting.Proofs.Graph.Pausing
import Drafting.Proofs.Linear.Product
import Drafting.Proofs.LeastSquares.Descending
import Drafting.Proofs.LeastSquares.Reordered
import Drafting.Proofs.LeastSquares.Listed
import Drafting.Proofs.Dual.Powers
import Drafting.Proofs.Graph.Sharing
import Drafting.Proofs.Formula.Faults
import Drafting.Proofs.Formula.Rejection
import Drafting.Proofs.LeastSquares.Evaluations
import Drafting.Proofs.Relaxation.Converged
import Drafting.Proofs.Program.FirstFault
import Drafting.Proofs.Relaxation.Listing
import Drafting.Proofs.Formula.Height
import Drafting.Proofs.Relaxation.Rounds
import Drafting.Proofs.LowLink.Simulation
import Drafting.Proofs.Constraint.Points
import Drafting.Proofs.Linear.Passes

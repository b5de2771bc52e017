import Clausal.Display.Picture
import Clausal.Grid.Table
import Clausal.Main
import Clausal.Proofs.Command.Solve
import Clausal.Proofs.Constraint.Addition
import Clausal.Proofs.Constraint.Cardinality
import Clausal.Proofs.Constraint.Implication
import Clausal.Proofs.Dimacs
import Clausal.Proofs.Store.Handed
import Clausal.Proofs.Store.Labels
import Clausal.Proofs.Store.Modes
import Clausal.Proofs.Store.Range
import Clausal.Proofs.Store.Refusal
import Clausal.Proofs.Store.Verbatim
import Clausal.Proofs.Store.Density
import Clausal.Proofs.Region.Density
import Clausal.Proofs.Region.Edges
import Clausal.Proofs.Variables
import Clausal.Proofs.Enumeration.Aggressive
import Clausal.Proofs.Enumeration.Complete
import Clausal.Proofs.Enumeration.Leftover
import Clausal.Proofs.Enumeration.Protocol
import Clausal.Proofs.Grid.Density
import Clausal.Proofs.Grid.Table
import Clausal.Proofs.Region.Confined
import Clausal.Proofs.Region.Fresh
import Clausal.Proofs.Region.SingleUse
import Clausal.Proofs.Region.Wrap
import Clausal.Region.Tree
import Clausal.Proofs.Constraint.Order
import Clausal.Proofs.Layout
import Clausal.Proofs.Solver.Report
import Clausal.Proofs.Grid.Labels
import Clausal.Proofs.Region.Search
import Clausal.Proofs.Region.Shape
import Clausal.Proofs.Store.Gaps

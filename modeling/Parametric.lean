import Parametric.Element.Local
import Parametric.Main
import Parametric.Proofs.Compilation.Cycle
import Parametric.Proofs.Conflict.Refusals
import Parametric.Proofs.Creation.Agreement
import Parametric.Proofs.Creation.Cycle
import Parametric.Proofs.Creation.Import
import Parametric.Proofs.Creation.Report
import Parametric.Proofs.Creation.Retry
import Parametric.Proofs.Creation.Variants
import Parametric.Proofs.Dependency.Closure
import Parametric.Proofs.Dependency.Loop
import Parametric.Proofs.Dependency.Order
import Parametric.Proofs.Engine.Durability
import Parametric.Proofs.Exchange.Reimport
import Parametric.Proofs.Formula.Exact
import Parametric.Proofs.Formula.Exponents
import Parametric.Proofs.Formula.Grouping
import Parametric.Proofs.Formula.Levels
import Parametric.Proofs.Formula.Normal
import Parametric.Proofs.Formula.Optimization
import Parametric.Proofs.Formula.Stability
import Parametric.Proofs.Name.Settling
import Parametric.Proofs.Name.Validation
import Parametric.Proofs.Sentence.Structure
import Parametric.Proofs.State.Comparison
import Parametric.Proofs.State.Hidden
import Parametric.Proofs.State.Identities
import Parametric.Proofs.State.Lengths
import Parametric.Proofs.State.Renaming
import Parametric.Proofs.State.Replay
import Parametric.Proofs.State.Restart
import Parametric.Proofs.State.Rollback
import Parametric.Proofs.State.Written
import Parametric.Proofs.Synchronization.Accounting
import Parametric.Proofs.Synchronization.Convergence

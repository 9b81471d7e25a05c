import Precis.Audit
import Precis.Main
import Precis.Node.Decode
import Precis.Node.Edit
import Precis.Proofs.Comments.Independence
import Precis.Proofs.Condensing.Batches
import Precis.Proofs.Enums.Immunity
import Precis.Proofs.Interchange.Canonical
import Precis.Proofs.Interchange.Rearranging
import Precis.Proofs.Pruning.Embedding
import Precis.Proofs.Pruning.Indifference
import Precis.Proofs.Pruning.Refusal
import Precis.Proofs.Running.Outcomes
import Precis.Proofs.Siblings.Documentation
import Precis.Proofs.Siblings.Merging
import Precis.Proofs.Types.Spellings
import Precis.Proofs.Types.Substance
import Precis.Proofs.Pruning.Findings
import Precis.Proofs.Pruning.Presentation
import Precis.Proofs.Siblings.Members
import Precis.Proofs.Imports.Tidying
import Precis.Proofs.Imports.UseTrees
import Precis.Proofs.Imports.Flattening
import Precis.Proofs.Fields.Initialisers
import Precis.Proofs.Fields.Targets
import Precis.Proofs.Annotations.Optional
import Precis.Proofs.Types.Dimensions
import Precis.Proofs.Docstrings.Cleaning
import Precis.Proofs.Placing.Ordering
import Precis.Proofs.Reporting.Coverage
import Precis.Proofs.Naming.Rust
import Precis.Proofs.Naming.Java
import Precis.Proofs.Running.Overrides
import Precis.Proofs.Walking.Visiting
import Precis.Proofs.Reporting.Excerpts

import Stacklet.Proofs.Typing.Renaming
import Stacklet.Proofs.Values.Run
import Stacklet.Proofs.Shape.Nodes
import Stacklet.Proofs.Scanning.Rendering
import Stacklet.Proofs.Scanning.Errors
import Stacklet.Proofs.Placement
import Stacklet.Proofs.Scanning.Stream
import Stacklet.Proofs.Frames
import Stacklet.Proofs.Widening
import Stacklet.Proofs.Indexing
import Stacklet.Proofs.Output
import Stacklet.Proofs.History
import Stacklet.Proofs.Decimal.Whole
import Stacklet.Proofs.Typing.Discipline
import Stacklet.Proofs.Listing

import Clausal.Main
import Clausal.Proofs.Resolution
import Clausal.Proofs.Rope
import Clausal.Proofs.TailCall
import Clausal.Proofs.Lexeme
import Clausal.Proofs.Layout
import Clausal.Proofs.Course
import Clausal.Proofs.Globals
import Clausal.Proofs.Growth
import Clausal.Proofs.Inclusion
import Clausal.Proofs.Registration
import Clausal.Proofs.Captured
import Clausal.Proofs.Alike
import Clausal.Proofs.Progress
import Clausal.Proofs.Expansion
import Clausal.Proofs.Loading
import Clausal.Proofs.Rereading
import Clausal.Proofs.Seam
import Clausal.Proofs.Linking
import Clausal.Proofs.Pieces
import Clausal.Proofs.Holding
import Clausal.Proofs.Order
import Clausal.Proofs.Steady
import Clausal.Proofs.InOrder
import Clausal.Proofs.Additions
import Clausal.Proofs.Cycles
import Clausal.Proofs.Datum
import Clausal.Proofs.Complaint
import Clausal.Proofs.Causes
import Clausal.Proofs.Watched
import Clausal.Proofs.Origin
import Clausal.Proofs.Quoting
import Clausal.Proofs.Prompt
import Clausal.Proofs.Precedence
import Clausal.Proofs.Dispatch
import Clausal.Proofs.Equality
import Clausal.Proofs.Merge
import Clausal.Proofs.Locator
import Clausal.Proofs.Arrangement
import Clausal.Proofs.Characters
import Clausal.Proofs.HigherOrder
import Clausal.Proofs.Steps
import Clausal.Proofs.Rounds
import Clausal.Proofs.Proper
import Clausal.Proofs.Recipe
import Clausal.Proofs.Constants
import Clausal.Proofs.Whereabouts
import Clausal.Proofs.Literals
import Clausal.Proofs.Excerpt
import Clausal.Proofs.Caret
import Clausal.Proofs.Routing
import Clausal.Proofs.Signatures

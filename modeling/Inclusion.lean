import Inclusion.Main
import Inclusion.Proofs.Coherence
import Inclusion.Proofs.Commuting
import Inclusion.Proofs.Compliance
import Inclusion.Proofs.Convergence
import Inclusion.Proofs.Covering
import Inclusion.Proofs.Deciding
import Inclusion.Proofs.Editing
import Inclusion.Proofs.Forgetting
import Inclusion.Proofs.Frame
import Inclusion.Proofs.Isolation
import Inclusion.Proofs.Matching
import Inclusion.Proofs.Obeying
import Inclusion.Proofs.Parting
import Inclusion.Proofs.Pass
import Inclusion.Proofs.Precedence
import Inclusion.Proofs.Printing
import Inclusion.Proofs.Registering
import Inclusion.Proofs.Reopening
import Inclusion.Proofs.Reporting
import Inclusion.Proofs.Rereading
import Inclusion.Proofs.Rewording
import Inclusion.Proofs.Settings.Decoding
import Inclusion.Proofs.Settings.Endings
import Inclusion.Proofs.Settings.Repeating
import Inclusion.Proofs.Settling
import Inclusion.Proofs.Undoing

import Cdr.Config.OfToml
import Cdr.Proofs.Classing
import Cdr.Proofs.Conforming
import Cdr.Proofs.Decoding
import Cdr.Proofs.Delimiting
import Cdr.Proofs.Domain
import Cdr.Proofs.Formatting
import Cdr.Proofs.Identity
import Cdr.Proofs.Iterating
import Cdr.Proofs.Judging
import Cdr.Proofs.Lasting
import Cdr.Proofs.Orders
import Cdr.Proofs.Overnesting
import Cdr.Proofs.Proportion
import Cdr.Proofs.Refining
import Cdr.Proofs.Refusing
import Cdr.Proofs.Rejecting
import Cdr.Proofs.Replaying
import Cdr.Proofs.Reusing
import Cdr.Proofs.Shifting
import Cdr.Proofs.Tight
import Cdr.Proofs.Transcribing
import Cdr.Proofs.Usability
import Cdr.Registry.Support
import Cdr.Value.Json

import Resumable.Token.Codec
import Resumable.Execution.Inspect
import Resumable.Main
import Resumable.Proofs.Terminal
import Resumable.Proofs.Stays
import Resumable.Proofs.Told
import Resumable.Proofs.Held
import Resumable.Proofs.Plain
import Resumable.Proofs.Bare
import Resumable.Proofs.Conservation
import Resumable.Proofs.Precedence
import Resumable.Proofs.Hygiene
import Resumable.Proofs.Spacing
import Resumable.Proofs.Exchange
import Resumable.Proofs.Shadowing
import Resumable.Proofs.Types
import Resumable.Proofs.Closing
import Resumable.Proofs.Cursors

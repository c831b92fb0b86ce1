import Lisplet.Exchange
import Lisplet.Parser
import Lisplet.Session
import Lisplet.Proofs.Bindings
import Lisplet.Proofs.Occurrence
import Lisplet.Proofs.Simulation
import Lisplet.Proofs.Runs
import Lisplet.Proofs.Canonical
import Lisplet.Proofs.Hygiene
import Lisplet.Proofs.Flattening
import Lisplet.Proofs.Grammar
import Lisplet.Proofs.Reading
import Lisplet.Proofs.Acceptance
import Lisplet.Proofs.Capping
import Lisplet.Proofs.Recovery
import Lisplet.Proofs.Sessions
import Lisplet.Proofs.Termination
import Lisplet.Proofs.Faults
import Lisplet.Proofs.Lexing
import Lisplet.Proofs.Splitting
import Lisplet.Proofs.Spelling
import Lisplet.Proofs.RoundTrip
import Lisplet.Proofs.Outcomes
import Lisplet.Proofs.Currying
import Lisplet.Proofs.Fresh
import Lisplet.Proofs.Tracing
import Lisplet.Proofs.Lists
import Lisplet.Proofs.Sorting
import Lisplet.Proofs.Numbers
import Lisplet.Proofs.Nearest
import Lisplet.Proofs.Encoding
import Lisplet.Proofs.Lexicon
import Lisplet.Proofs.Captures
import Lisplet.Proofs.Exactness
import Lisplet.Proofs.Extremes
import Lisplet.Proofs.Inertness
import Lisplet.Proofs.Places
import Lisplet.Proofs.Reporting
import Lisplet.Proofs.Blanking
import Lisplet.Proofs.Equality
import Lisplet.Proofs.Folding
import Lisplet.Proofs.Application
import Lisplet.Proofs.Connectives
import Lisplet.Proofs.Visibility
import Lisplet.Proofs.Normalizing
import Lisplet.Proofs.JsonText
import Lisplet.Proofs.Decoding

import Lisplet.Main
import Lisplet.Proofs.Policy
import Lisplet.Proofs.Effect
import Lisplet.Proofs.Sound
import Lisplet.Proofs.Operations
import Lisplet.Proofs.Evaluation
import Lisplet.Proofs.Frames
import Lisplet.Proofs.Reachable
import Lisplet.Proofs.Uses
import Lisplet.Proofs.Storing
import Lisplet.Proofs.BareHalts
import Lisplet.Proofs.Tagging
import Lisplet.Proofs.Trace
import Lisplet.Proofs.Crash
import Lisplet.Proofs.Application
import Lisplet.Proofs.Settling
import Lisplet.Proofs.Termination
import Lisplet.Proofs.Continuation
import Lisplet.Proofs.Readable
import Lisplet.Proofs.Shadowing
import Lisplet.Proofs.Layout
import Lisplet.Proofs.Safe
import Lisplet.Proofs.Separation
import Lisplet.Proofs.Data
import Lisplet.Proofs.Signals
import Lisplet.Proofs.Feeding
import Lisplet.Proofs.RoundTrip
import Lisplet.Proofs.Grammar
import Lisplet.Proofs.Recognition
import Lisplet.Proofs.Derivation
import Lisplet.Proofs.Pairing
import Lisplet.Proofs.Lockstep
import Lisplet.Proofs.Parallel
import Lisplet.Proofs.Simulation
import Lisplet.Proofs.DepthLimit
import Lisplet.Proofs.Evolution
import Lisplet.Proofs.Construction
import Lisplet.Proofs.Depiction
import Lisplet.Proofs.Literals
import Lisplet.Proofs.Walks
import Lisplet.Proofs.Rendering
import Lisplet.Proofs.Bisimilarity
import Lisplet.Proofs.Equality
import Lisplet.Proofs.Quotation
import Lisplet.Proofs.Requests
import Lisplet.Proofs.Dialogue
import Lisplet.Proofs.Accounting
import Lisplet.Proofs.Binding
import Lisplet.Proofs.Exactness
import Lisplet.Proofs.Assignment
import Lisplet.Proofs.Renaming
import Lisplet.Proofs.Insertion
import Lisplet.Proofs.Calls
import Lisplet.Proofs.Jumps
import Lisplet.Proofs.Moments
import Lisplet.Proofs.Protocol
import Lisplet.Proofs.Concatenation
import Lisplet.Proofs.Completion
import Lisplet.Proofs.Scoping
import Lisplet.Proofs.Expressions
import Lisplet.Proofs.Counting
import Lisplet.Proofs.StructLiterals
import Lisplet.Proofs.Provenance
import Lisplet.Proofs.Coercion
import Lisplet.Proofs.Positions

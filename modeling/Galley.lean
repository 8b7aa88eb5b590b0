import Galley.Canvas
import Galley.Image.Registry
import Galley.Surface
import Galley.Proofs.Depiction
import Galley.Proofs.Offence
import Galley.Proofs.Containment
import Galley.Proofs.Arrangement
import Galley.Proofs.Accumulation
import Galley.Proofs.Replay
import Galley.Proofs.Shrinking
import Galley.Proofs.Hiding
import Galley.Proofs.Continuation
import Galley.Proofs.Composition
import Galley.Proofs.Filling
import Galley.Proofs.Unwrapping
import Galley.Proofs.Strictness
import Galley.Proofs.Grafting
import Galley.Proofs.Precision
import Galley.Proofs.Canonical
import Galley.Proofs.Literal
import Galley.Proofs.Replies
import Galley.Proofs.Payload
import Galley.Proofs.Tinting
import Galley.Proofs.Narrowing
import Galley.Proofs.Registration
import Galley.Proofs.Eviction

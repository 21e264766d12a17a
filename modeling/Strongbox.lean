import Strongbox.Cipher.Key
import Strongbox.Cipher.Stream
import Strongbox.Host.Files
import Strongbox.Proofs.Cipher.Splicing
import Strongbox.Proofs.Cipher.Nonces
import Strongbox.Proofs.Store.Refinement
import Strongbox.Proofs.Store.Identifiers
import Strongbox.Proofs.Store.Integrity
import Strongbox.Proofs.Store.Course
import Strongbox.Proofs.Json.Levels
import Strongbox.Proofs.Store.Changes
import Strongbox.Proofs.Store.Making
import Strongbox.Proofs.Store.Chronology
import Strongbox.Proofs.Store.Retention
import Strongbox.Proofs.Store.Failures
import Strongbox.Proofs.OrderedMap
import Strongbox.Proofs.Store.Generations
import Strongbox.Proofs.Store.Retry
import Strongbox.Proofs.RoundTrip
import Strongbox.Proofs.Store.Ranges
import Strongbox.Proofs.Store.Placement
import Strongbox.Proofs.Store.Collections
import Strongbox.Proofs.Store.Endings
import Strongbox.Proofs.Form
import Strongbox.Proofs.Sizes
import Strongbox.Proofs.Store.Independence
import Strongbox.Proofs.Store.Keys
import Strongbox.Proofs.Walks
import Strongbox.Proofs.Store.Exhaustion
import Strongbox.Proofs.Joining
import Strongbox.Proofs.Store.Warnings

import CanonicalUri.Proofs.Website
import CanonicalUri.Trace
import CanonicalUri.Uri.Describe
import CanonicalUri.Uri.Json
import CanonicalUri.Uri.Order
import CanonicalUri.Uri.Part
import CanonicalUri.Proofs.HashBang
import CanonicalUri.Proofs.Assignment
import CanonicalUri.Proofs.Equality
import CanonicalUri.Proofs.Json
import CanonicalUri.Proofs.MovedPath
import CanonicalUri.Proofs.Reachable
import CanonicalUri.Proofs.Respelling
import CanonicalUri.Proofs.Rewriting
import CanonicalUri.Proofs.Modes
import CanonicalUri.Proofs.Phases
import CanonicalUri.Proofs.Addresses
import CanonicalUri.Proofs.Setters
import CanonicalUri.Proofs.Redaction
import CanonicalUri.Proofs.PathEdits
import CanonicalUri.Proofs.EscapedBytes
import CanonicalUri.Proofs.Decomposition
import CanonicalUri.Proofs.LetterCase
import CanonicalUri.Proofs.LossyText
import CanonicalUri.Proofs.QueryText
import CanonicalUri.Proofs.QueryReaders
import CanonicalUri.Proofs.AddressHosts
import CanonicalUri.Proofs.Anchors
import CanonicalUri.Proofs.Offsets
import CanonicalUri.Proofs.Ports
import CanonicalUri.Proofs.ServiceLines
import CanonicalUri.Proofs.Scanning

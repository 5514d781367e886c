import SamlSeal.Main
import SamlSeal.Proofs.Markup
import SamlSeal.Proofs.Table
import SamlSeal.Proofs.View
import SamlSeal.Proofs.Crypto
import SamlSeal.Proofs.TextBytes
import SamlSeal.Proofs.Words
import SamlSeal.Proofs.Profile
import SamlSeal.Proofs.Locality
import SamlSeal.Proofs.Signing
import SamlSeal.Proofs.StartTags
import SamlSeal.Proofs.Lexical
import SamlSeal.Proofs.Content
import SamlSeal.Proofs.Unambiguous
import SamlSeal.Proofs.Evidence
import SamlSeal.Proofs.Numbering
import SamlSeal.Proofs.Scope
import SamlSeal.Proofs.Scanning
import SamlSeal.Proofs.Bindings
import SamlSeal.Proofs.Rendering
import SamlSeal.Proofs.Escaping
import SamlSeal.Proofs.Spelling
import SamlSeal.Proofs.Rereading
import SamlSeal.Proofs.Fitness
import SamlSeal.Proofs.Shape
import SamlSeal.Proofs.Likeness
import SamlSeal.Proofs.Verdict
import SamlSeal.Proofs.Survival
import SamlSeal.Proofs.Restating
import SamlSeal.Proofs.Fixpoint
import SamlSeal.Proofs.Dependence
import SamlSeal.Proofs.Copies
import SamlSeal.Proofs.Trust
import SamlSeal.Proofs.Rows
import SamlSeal.Proofs.Arena
import SamlSeal.Proofs.Removal
import SamlSeal.Proofs.Comments
import SamlSeal.Proofs.Footprint
import SamlSeal.Proofs.Sealing
import SamlSeal.Proofs.Binding
import SamlSeal.Proofs.Isomorphism
import SamlSeal.Proofs.Subtrees
import SamlSeal.Proofs.OpenPlaces
import SamlSeal.Proofs.Placeholders
import SamlSeal.Proofs.PrefixLists
import SamlSeal.Proofs.KeyFiles
import SamlSeal.Proofs.Reports
import SamlSeal.Proofs.Prefixes
import SamlSeal.Proofs.TagBytes
import SamlSeal.Proofs.Escapers

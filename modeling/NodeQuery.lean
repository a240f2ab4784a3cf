import NodeQuery.Main
import NodeQuery.Query.Equality
import NodeQuery.Proofs.Lexeme
import NodeQuery.Proofs.Lexing
import NodeQuery.Proofs.Literal
import NodeQuery.Proofs.Grammar
import NodeQuery.Proofs.Parsing
import NodeQuery.Proofs.Derivation
import NodeQuery.Proofs.Shape
import NodeQuery.Proofs.RoundTrip
import NodeQuery.Proofs.Editing
import NodeQuery.Proofs.Scanning
import NodeQuery.Proofs.Steady
import NodeQuery.Proofs.Opening
import NodeQuery.Proofs.Merging
import NodeQuery.Proofs.Reviewing
import NodeQuery.Proofs.Validity
import NodeQuery.Proofs.Paths
import NodeQuery.Proofs.Pipeline
import NodeQuery.Proofs.Naming
import NodeQuery.Proofs.Tiling
import NodeQuery.Proofs.Filling
import NodeQuery.Proofs.OutsideIn
import NodeQuery.Proofs.Targeting
import NodeQuery.Proofs.Locality
import NodeQuery.Proofs.Grouping
import NodeQuery.Proofs.Patterns
import NodeQuery.Proofs.FieldTexts
import NodeQuery.Proofs.Items
import NodeQuery.Proofs.Blocks
import NodeQuery.Proofs.Layout
import NodeQuery.Proofs.Canonical
import NodeQuery.Proofs.Adding
import NodeQuery.Proofs.Batching
import NodeQuery.Proofs.Repeating
import NodeQuery.Proofs.Undoing
import NodeQuery.Proofs.OneToken
import NodeQuery.Proofs.Removing
import NodeQuery.Proofs.Updating
import NodeQuery.Proofs.Idle
import NodeQuery.Proofs.Reporting
import NodeQuery.Proofs.Culprit
import NodeQuery.Proofs.Spacing
import NodeQuery.Proofs.CutOut
import NodeQuery.Proofs.Occurrences
import NodeQuery.Proofs.Standalone
import NodeQuery.Proofs.Suggesting
import NodeQuery.Proofs.Mending
import NodeQuery.Proofs.Quoting
import NodeQuery.Proofs.Deduping
import NodeQuery.Proofs.Normalizing
import NodeQuery.Proofs.Judging

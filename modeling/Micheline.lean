import Micheline.Text.Blank
import Micheline.Text.Hex
import Micheline.Json.Reader
import Micheline.Json.Writer
import Micheline.Node.Annot
import Micheline.Node.Keyword
import Micheline.Node.Json
import Micheline.Node.Michelson
import Micheline.Binary.Packed
import Micheline.Binary.Cursor
import Micheline.Identifier.Role
import Micheline.Calendar.Timestamp
import Micheline.Ty.Typing
import Micheline.Ty.Matching
import Micheline.Ty.Docs
import Micheline.Value.Settle
import Micheline.Value.Project
import Micheline.Value.Outline
import Micheline.Value.Presentation
import Micheline.Value.Difference
import Micheline.Value.OrderedMap
import Micheline.Value.BigMap
import Micheline.Tree.Settle
import Micheline.Tree.Project
import Micheline.Tree.State
import Micheline.Form.Submission
import Micheline.Contract.Registry
import Micheline.Contract.Script
import Micheline.CommandLine.Run
import Micheline.Main
import Micheline.Proofs.Binary.RoundTrip
import Micheline.Proofs.Tree.Preserve
import Micheline.Proofs.Tree.Binary
import Micheline.Proofs.Value.Comparable
import Micheline.Proofs.Value.Entry
import Micheline.Proofs.Value.OrderedMap
import Micheline.Proofs.Tree.Reachable
import Micheline.Proofs.Base58.RoundTrip
import Micheline.Proofs.Identifier.RoundTrip
import Micheline.Proofs.Calendar.Date
import Micheline.Proofs.Calendar.Timestamp
import Micheline.Proofs.Tree.Readable
import Micheline.Proofs.Tree.Arity
import Micheline.Proofs.Tree.Json
import Micheline.Proofs.Value.Overlay
import Micheline.Proofs.Tree.Unchanged
import Micheline.Proofs.Identifier.Text
import Micheline.Proofs.Tree.Updates
import Micheline.Proofs.Tree.Form
import Micheline.Proofs.Form.Object
import Micheline.Proofs.Form.Default
import Micheline.Proofs.Tree.Submitted
import Micheline.Proofs.Contract.Entrypoint
import Micheline.Proofs.CommandLine.Binary
import Micheline.Proofs.Binary.Cursor
import Micheline.Proofs.Value.Gather
import Micheline.Proofs.Value.Classified
import Micheline.Proofs.Value.Spelling
import Micheline.Proofs.Binary.Overflow
import Micheline.Proofs.Ty.Matching
import Micheline.Proofs.Contract.Interface
import Micheline.Proofs.Tree.Typing
import Micheline.Proofs.Form.Source
import Micheline.Proofs.Node.Canonical
import Micheline.Proofs.Contract.Leaf
import Micheline.Proofs.Tree.Batches
import Micheline.Proofs.Ty.References
import Micheline.Proofs.Ty.Definitions
import Micheline.Proofs.Contract.Constants
import Micheline.Proofs.Contract.Sections

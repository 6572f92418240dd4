import CoolTree.Console.Highlight
import CoolTree.Main
import CoolTree.Tree.Cursor
import CoolTree.Proofs.Acceptance
import CoolTree.Proofs.Lossless
import CoolTree.Proofs.Report
import CoolTree.Proofs.Initializer
import CoolTree.Proofs.Nesting
import CoolTree.Proofs.Recovery
import CoolTree.Proofs.Interchange
import CoolTree.Proofs.Erasure
import CoolTree.Proofs.Strength
import CoolTree.Proofs.Budget
import CoolTree.Proofs.Limit
import CoolTree.Proofs.Depth
import CoolTree.Proofs.Schema
import CoolTree.Proofs.Loading
import CoolTree.Proofs.Gaps
import CoolTree.Proofs.Literal
import CoolTree.Proofs.Brackets
import CoolTree.Proofs.Session
import CoolTree.Proofs.Strict
import CoolTree.Proofs.Readable
import CoolTree.Proofs.Header
import CoolTree.Proofs.Lookup
import CoolTree.Proofs.Transcript
import CoolTree.Proofs.Cutoff
import CoolTree.Proofs.Respacing
import CoolTree.Proofs.Values
import CoolTree.Proofs.Deletion
import CoolTree.Proofs.Highlighting
import CoolTree.Proofs.Batches
import CoolTree.Proofs.Mending
import CoolTree.Proofs.TypeNames

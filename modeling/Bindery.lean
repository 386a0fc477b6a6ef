import Bindery.Text.Paragraph
import Bindery.Text.Wrap
import Bindery.Doc.Layout
import Bindery.Doc.Printer
import Bindery.Json
import Bindery.Hierarchy.Subtyping
import Bindery.Scalar
import Bindery.Memo.CallKey
import Bindery.Memo.Cache
import Bindery.Structural.Declaration
import Bindery.Artifact.View
import Bindery.Artifact.Codec
import Bindery.Text.Escape
import Bindery.Revision
import Bindery.Path
import Bindery.Console
import Bindery.Proofs.Hierarchy.Merge
import Bindery.Proofs.Hierarchy.Reachable
import Bindery.Proofs.Hierarchy.Subclass
import Bindery.Proofs.Hierarchy.Lineage
import Bindery.Proofs.Hierarchy.SharedBeginning
import Bindery.Proofs.Hierarchy.Order
import Bindery.Proofs.Structural.Exclusion
import Bindery.Proofs.Structural.SameFields
import Bindery.Proofs.Hierarchy.CommonAncestor
import Bindery.Proofs.Hierarchy.Meet
import Bindery.Proofs.Doc.Comment
import Bindery.Proofs.Hierarchy.Definition
import Bindery.Proofs.Hierarchy.Table
import Bindery.Proofs.Hierarchy.Renaming
import Bindery.Proofs.Hierarchy.Declared
import Bindery.Proofs.Text.Recovery
import Bindery.Proofs.Text.Optimal
import Bindery.Proofs.Text.Cut
import Bindery.Proofs.Text.Boundary
import Bindery.Proofs.Text.Succession
import Bindery.Proofs.Text.Spacing
import Bindery.Proofs.Text.Rewrap
import Bindery.Proofs.Memo.Recursion
import Bindery.Proofs.Memo.FirstResult
import Bindery.Proofs.Artifact.Equality
import Bindery.Proofs.Doc.Recovery
import Bindery.Proofs.Doc.Delimiter
import Bindery.Proofs.Doc.Frame
import Bindery.Proofs.Doc.Width
import Bindery.Proofs.Doc.Idempotent
import Bindery.Proofs.Artifact.Fields
import Bindery.Proofs.Memo.Order
import Bindery.Proofs.Artifact.RoundTrip
import Bindery.Proofs.Text.Seam
import Bindery.Proofs.Text.LineEnd
import Bindery.Proofs.Doc.Printing
import Bindery.Proofs.Memo.CallKey
import Bindery.Proofs.Text.Reading
import Bindery.Proofs.Memo.Hit
import Bindery.Proofs.Hierarchy.Predicate
import Bindery.Proofs.Rendering
import Bindery.Proofs.Structural.KeyCheck
import Bindery.Proofs.Text.Turn
import Bindery.Proofs.Text.ByteWrap
import Bindery.Proofs.Memo.Log

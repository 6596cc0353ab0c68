import RegisterLayout.Field.Same
import RegisterLayout.Main
import RegisterLayout.Proofs.Size
import RegisterLayout.UniqueName
import RegisterLayout.Proofs.Leaf
import RegisterLayout.Proofs.BitField
import RegisterLayout.Proofs.Acceptance
import RegisterLayout.Proofs.BitPartition
import RegisterLayout.Proofs.DeclaredStruct
import RegisterLayout.Proofs.Offsets
import RegisterLayout.Proofs.AlignmentClass
import RegisterLayout.Proofs.DiagramPlacement
import RegisterLayout.Proofs.DiagramRows
import RegisterLayout.Proofs.Legend
import RegisterLayout.Proofs.FullName
import RegisterLayout.Proofs.NameClash
import RegisterLayout.Proofs.Accessors
import RegisterLayout.Proofs.DeclaredNames
import RegisterLayout.Proofs.MemberNames
import RegisterLayout.Proofs.Described
import RegisterLayout.Proofs.Misled
import RegisterLayout.Proofs.Contained
import RegisterLayout.Proofs.Authored
import RegisterLayout.Proofs.Appended
import RegisterLayout.Proofs.Positions
import RegisterLayout.Proofs.ReadDocuments
import RegisterLayout.Proofs.Loading
import RegisterLayout.Proofs.NamingRule
import RegisterLayout.Proofs.GivenOffset
import RegisterLayout.Proofs.Vacant
import RegisterLayout.Proofs.ShownBits
import RegisterLayout.Proofs.Alignment
import RegisterLayout.Proofs.Redirection
import RegisterLayout.Proofs.Identifiers
import RegisterLayout.Proofs.CommentBlock
import RegisterLayout.Proofs.LabelSearch
import RegisterLayout.Proofs.Undeclared
import RegisterLayout.Proofs.DeclarationOptions
import RegisterLayout.Proofs.Pushes
import RegisterLayout.Proofs.Wrapping
import RegisterLayout.Proofs.ShownLines
import RegisterLayout.Proofs.Padding
import RegisterLayout.Proofs.ShownNames

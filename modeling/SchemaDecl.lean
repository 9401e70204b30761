import SchemaDecl.Collation
import SchemaDecl.Constant
import SchemaDecl.Declaration.Basic
import SchemaDecl.Declaration.Create
import SchemaDecl.Declaration.Layout
import SchemaDecl.Diagnostic
import SchemaDecl.EnumDraft
import SchemaDecl.Fault
import SchemaDecl.Journal
import SchemaDecl.Matching
import SchemaDecl.Proofs.AliasLine
import SchemaDecl.Proofs.AliasRule
import SchemaDecl.Proofs.BlockSeparation
import SchemaDecl.Proofs.CommentLines
import SchemaDecl.Proofs.CommentReading
import SchemaDecl.Proofs.CommentRereading
import SchemaDecl.Proofs.Creation
import SchemaDecl.Proofs.Delivery
import SchemaDecl.Proofs.DraftHistory
import SchemaDecl.Proofs.EmptyLines
import SchemaDecl.Proofs.FaultTexts
import SchemaDecl.Proofs.FirstMismatch
import SchemaDecl.Proofs.Indentation
import SchemaDecl.Proofs.IndentedText
import SchemaDecl.Proofs.LaterOptions
import SchemaDecl.Proofs.Layouts
import SchemaDecl.Proofs.Lexical
import SchemaDecl.Proofs.Newlines
import SchemaDecl.Proofs.Obtainable
import SchemaDecl.Proofs.Outcome
import SchemaDecl.Proofs.Outline
import SchemaDecl.Proofs.Reading.Basic
import SchemaDecl.Proofs.Reading.Block
import SchemaDecl.Proofs.Reading.Constant
import SchemaDecl.Proofs.Reading.Declaration
import SchemaDecl.Proofs.Reading.Notation
import SchemaDecl.Proofs.Reading.Value
import SchemaDecl.Proofs.Rearrangement
import SchemaDecl.Proofs.Records
import SchemaDecl.Proofs.ReportOrder
import SchemaDecl.Proofs.SessionRuns
import SchemaDecl.Proofs.Tokens
import SchemaDecl.Proofs.TreeJournal
import SchemaDecl.Proofs.Trees
import SchemaDecl.Proofs.Undocumented
import SchemaDecl.Proofs.Wrapping
import SchemaDecl.Session
import SchemaDecl.Text.Basic
import SchemaDecl.Text.Sink
import SchemaDecl.Value.Basic
import SchemaDecl.Value.Edit

import QwebReceiver.Text
import QwebReceiver.Text.CharClass
import QwebReceiver.NameSet
import QwebReceiver.Outcome
import QwebReceiver.Trace
import QwebReceiver.Draft
import QwebReceiver.Source.Location
import QwebReceiver.Source.Cursor
import QwebReceiver.Expr.Error
import QwebReceiver.Expr.Delimiter
import QwebReceiver.Expr.ByteDelimiter
import QwebReceiver.Expr.Token
import QwebReceiver.Expr.Piece
import QwebReceiver.Expr.Arrow
import QwebReceiver.Expr.Qualify
import QwebReceiver.Expr.Indexed
import QwebReceiver.Selector
import QwebReceiver.Markup.Problem
import QwebReceiver.Markup.Reference
import QwebReceiver.Markup.Spelling
import QwebReceiver.Markup.Token
import QwebReceiver.Markup.Scan
import QwebReceiver.Markup.Node
import QwebReceiver.Markup.Tree
import QwebReceiver.Markup.Document
import QwebReceiver.Markup.Walk
import QwebReceiver.Json.Reader
import QwebReceiver.Json.Quoted
import QwebReceiver.Json.Numeral
import QwebReceiver.Json.Skip
import QwebReceiver.Json.Value
import QwebReceiver.Json.Layout
import QwebReceiver.Json.LayoutReading
import QwebReceiver.Template.Error
import QwebReceiver.Template.Directive
import QwebReceiver.Template.Binding
import QwebReceiver.Template.VarMap
import QwebReceiver.Template.Corpus
import QwebReceiver.Template.CorpusFile
import QwebReceiver.Template.CorpusFileReading
import QwebReceiver.Template.Qualify
import QwebReceiver.Files.Path
import QwebReceiver.Files.Tree
import QwebReceiver.Files.Glob
import QwebReceiver.Batch.Error
import QwebReceiver.Batch.Config
import QwebReceiver.Batch.Session
import QwebReceiver.Batch.Source
import QwebReceiver.Batch.Run
import QwebReceiver.CommandLine.Arguments
import QwebReceiver.CommandLine.Run
import QwebReceiver.Main
import QwebReceiver.Proofs.Batch.Again
import QwebReceiver.Proofs.Batch.Aggregate
import QwebReceiver.Proofs.Batch.Lookup
import QwebReceiver.Proofs.Batch.Run
import QwebReceiver.Proofs.Expr.Apart
import QwebReceiver.Proofs.Expr.ByteDelimiter
import QwebReceiver.Proofs.Expr.Compose
import QwebReceiver.Proofs.Expr.Dynamic
import QwebReceiver.Proofs.Expr.Failure
import QwebReceiver.Proofs.Expr.Fill
import QwebReceiver.Proofs.Expr.Growth
import QwebReceiver.Proofs.Expr.Indexed
import QwebReceiver.Proofs.Expr.Judge
import QwebReceiver.Proofs.Expr.Lexing
import QwebReceiver.Proofs.Expr.Literal
import QwebReceiver.Proofs.Expr.Mark
import QwebReceiver.Proofs.Expr.Qualify
import QwebReceiver.Proofs.Expr.Reading
import QwebReceiver.Proofs.Expr.Relex
import QwebReceiver.Proofs.Expr.Rewritten
import QwebReceiver.Proofs.Expr.Scopes
import QwebReceiver.Proofs.Expr.Settle
import QwebReceiver.Proofs.Expr.Speculate
import QwebReceiver.Proofs.Expr.Stay
import QwebReceiver.Proofs.Expr.Strand
import QwebReceiver.Proofs.Expr.Transparent
import QwebReceiver.Proofs.Files.Shape
import QwebReceiver.Proofs.Markup.Alignment
import QwebReceiver.Proofs.Markup.Derivation
import QwebReceiver.Proofs.Markup.Edit
import QwebReceiver.Proofs.Markup.Exact
import QwebReceiver.Proofs.Markup.Extent
import QwebReceiver.Proofs.Markup.Grammar
import QwebReceiver.Proofs.Markup.Insertion
import QwebReceiver.Proofs.Markup.Layout
import QwebReceiver.Proofs.Markup.Lexeme
import QwebReceiver.Proofs.Markup.Likeness
import QwebReceiver.Proofs.Markup.Listing
import QwebReceiver.Proofs.Markup.Order
import QwebReceiver.Proofs.Markup.Place
import QwebReceiver.Proofs.Markup.Reference
import QwebReceiver.Proofs.Markup.Respell
import QwebReceiver.Proofs.Markup.RoundTrip
import QwebReceiver.Proofs.Markup.Stored
import QwebReceiver.Proofs.Markup.Stream
import QwebReceiver.Proofs.Markup.Subtree
import QwebReceiver.Proofs.Markup.Written
import QwebReceiver.Proofs.Selector
import QwebReceiver.Proofs.Selector.Compose
import QwebReceiver.Proofs.Template.Content
import QwebReceiver.Proofs.Template.Corpus
import QwebReceiver.Proofs.Template.Effect
import QwebReceiver.Proofs.Template.Follow
import QwebReceiver.Proofs.Template.Gathering
import QwebReceiver.Proofs.Template.Growth
import QwebReceiver.Proofs.Template.Idempotent
import QwebReceiver.Proofs.Template.Insertion
import QwebReceiver.Proofs.Template.Isolation
import QwebReceiver.Proofs.Template.Owner
import QwebReceiver.Proofs.Template.Passes
import QwebReceiver.Proofs.Template.Place
import QwebReceiver.Proofs.Template.Qualify
import QwebReceiver.Proofs.Template.Reference
import QwebReceiver.Proofs.Template.Reselect
import QwebReceiver.Proofs.Template.Scope
import QwebReceiver.Proofs.Template.Selectors
import QwebReceiver.Proofs.Template.Settle
import QwebReceiver.Proofs.Template.Unplaced
import QwebReceiver.Proofs.Template.VarMap
import QwebReceiver.Proofs.Text.CharClass
import QwebReceiver.Proofs.Text.Utf8

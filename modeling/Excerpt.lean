import Excerpt.Text.WhiteSpace
import Excerpt.Text.Basic
import Excerpt.Text.AsciiCase
import Excerpt.Text.Lines
import Excerpt.Text.Letter
import Excerpt.Text.Utf8
import Excerpt.Number.Digits
import Excerpt.Number.Integer
import Excerpt.Number.Binary64
import Excerpt.Options
import Excerpt.Diagnostic
import Excerpt.Directive.Error
import Excerpt.Directive.Basic
import Excerpt.Directive.Parse
import Excerpt.Fragment
import Excerpt.Renderer
import Excerpt.Source.LineTable
import Excerpt.Source.Token
import Excerpt.Source.Lexeme
import Excerpt.Source.Code
import Excerpt.Source.Header
import Excerpt.Source.Member
import Excerpt.Source.Outline
import Excerpt.Source.File
import Excerpt.Glob.Pattern
import Excerpt.Glob.Match
import Excerpt.Store.Locator
import Excerpt.Store.Basic
import Excerpt.Store.Memory
import Excerpt.Source.Marker
import Excerpt.Source.Locate
import Excerpt.Error
import Excerpt.Extractor.SourceFiles
import Excerpt.Extractor.Benchmark
import Excerpt.Extractor.Basic
import Excerpt.Engine
import Excerpt.Document
import Excerpt.Toml.Value
import Excerpt.Toml.Scalar
import Excerpt.Toml.Quoted
import Excerpt.Toml.Read
import Excerpt.Settings.Basic
import Excerpt.Settings.Read
import Excerpt.Tree.Path
import Excerpt.Tree.Basic
import Excerpt.Tree.Lookup
import Excerpt.Tree.Store
import Excerpt.Ignore
import Excerpt.Discovery.Selection
import Excerpt.Discovery.Walk
import Excerpt.Project
import Excerpt.Diff.Middle
import Excerpt.Diff.Script
import Excerpt.Diff.Tidy
import Excerpt.Text.JsonString
import Excerpt.Diff.Lines
import Excerpt.CommandLine.Arguments
import Excerpt.CommandLine.Run
import Excerpt.Main
import Excerpt.Proofs.Document.Division
import Excerpt.Proofs.Engine.View
import Excerpt.Proofs.Text.Lines
import Excerpt.Proofs.Document.Regions
import Excerpt.Proofs.Document.Renewal
import Excerpt.Proofs.Source.Member
import Excerpt.Proofs.Source.Offsets
import Excerpt.Proofs.Source.Reading
import Excerpt.Proofs.Source.Header
import Excerpt.Proofs.Source.Balanced
import Excerpt.Proofs.Source.Ranges
import Excerpt.Proofs.Source.Spelling
import Excerpt.Proofs.Source.Forest
import Excerpt.Proofs.Source.SpelledMember
import Excerpt.Proofs.Source.Recovery
import Excerpt.Proofs.Source.LineTable
import Excerpt.Proofs.Source.Nesting
import Excerpt.Proofs.Source.Locate
import Excerpt.Proofs.Source.LineTokens
import Excerpt.Proofs.Source.LineRange
import Excerpt.Proofs.Text.Indentation
import Excerpt.Proofs.Source.Redaction
import Excerpt.Proofs.Source.WrittenExcerpt
import Excerpt.Proofs.Text.CarriageReturns
import Excerpt.Proofs.Source.BareTokens
import Excerpt.Proofs.Source.Relocation
import Excerpt.Proofs.Source.BareLayout
import Excerpt.Proofs.Source.LineEndings
import Excerpt.Proofs.Document.Failures
import Excerpt.Proofs.Document.Independence
import Excerpt.Proofs.Engine.Memory
import Excerpt.Proofs.Engine.Snapshot
import Excerpt.Proofs.Source.MovedLayout
import Excerpt.Proofs.Source.Places
import Excerpt.Proofs.Source.Bodies
import Excerpt.Proofs.Source.MarkedText
import Excerpt.Proofs.Text.Stripping
import Excerpt.Proofs.Source.ByteOrderMark
import Excerpt.Proofs.Source.SharedCode
import Excerpt.Proofs.Directive.Written
import Excerpt.Proofs.Document.EndMarkers
import Excerpt.Proofs.Document.Terminators
import Excerpt.Proofs.Source.Coverage
import Excerpt.Proofs.Document.Composition
import Excerpt.Proofs.Document.Resumption
import Excerpt.Proofs.Tree.Revision
import Excerpt.Proofs.Tree.Paths
import Excerpt.Proofs.Engine.Reads
import Excerpt.Proofs.Discovery.Documents
import Excerpt.Proofs.Document.Settled
import Excerpt.Proofs.Project.Reports
import Excerpt.Proofs.Project.Update
import Excerpt.Proofs.CommandLine.CleanUpdate
import Excerpt.Proofs.CommandLine.StaleDocuments
import Excerpt.Proofs.Source.Headings
import Excerpt.Proofs.Source.AnyType
import Excerpt.Proofs.Source.MemberNames
import Excerpt.Proofs.Source.TupleMembers
import Excerpt.Proofs.Source.NamelessMembers
import Excerpt.Proofs.Source.LineContent
import Excerpt.Proofs.Text.Normalized
import Excerpt.Proofs.Engine.ContentEdges
import Excerpt.Proofs.Source.OpaqueLexemes
import Excerpt.Proofs.Text.Utf8
import Excerpt.Proofs.Options.Written
import Excerpt.Proofs.Engine.Resolution
import Excerpt.Proofs.Directive.Rules
import Excerpt.Proofs.Source.DeclaredNames
import Excerpt.Proofs.Source.DottedNames
import Excerpt.Proofs.Options.Concatenation
import Excerpt.Proofs.Tree.Listing
import Excerpt.Proofs.Text.Sorted
import Excerpt.Proofs.Discovery.Visits
import Excerpt.Proofs.Discovery.Cycles
import Excerpt.Proofs.Discovery.Selected
import Excerpt.Proofs.Number.WholeNumbers
import Excerpt.Proofs.Glob.Language
import Excerpt.Proofs.Store.Locators
import Excerpt.Proofs.Store.Directories
import Excerpt.Proofs.Extractor.NewestRuntime
import Excerpt.Proofs.Source.LineStarts
import Excerpt.Proofs.Extractor.Environment
import Excerpt.Proofs.Extractor.Probe
import Excerpt.Proofs.Source.Progress

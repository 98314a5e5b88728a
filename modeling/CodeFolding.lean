import CodeFolding.Cursor
import CodeFolding.Document
import CodeFolding.Document.Line
import CodeFolding.Fault
import CodeFolding.Outline
import CodeFolding.Outline.Change
import CodeFolding.Outline.Edit
import CodeFolding.Proofs.BlockComments
import CodeFolding.Proofs.BraceMatching
import CodeFolding.Proofs.CaseGroups
import CodeFolding.Proofs.Changes
import CodeFolding.Proofs.Classification
import CodeFolding.Proofs.Dedenting
import CodeFolding.Proofs.DirectiveArms
import CodeFolding.Proofs.DirectiveLabels
import CodeFolding.Proofs.Extension
import CodeFolding.Proofs.Growth
import CodeFolding.Proofs.Histories
import CodeFolding.Proofs.Hovering
import CodeFolding.Proofs.ImportRuns
import CodeFolding.Proofs.Layouts
import CodeFolding.Proofs.LineBreaks
import CodeFolding.Proofs.LineEndings
import CodeFolding.Proofs.Listing
import CodeFolding.Proofs.Nesting
import CodeFolding.Proofs.Openings
import CodeFolding.Proofs.Places
import CodeFolding.Proofs.Plain
import CodeFolding.Proofs.Positions
import CodeFolding.Proofs.Previews
import CodeFolding.Proofs.PushedDown
import CodeFolding.Proofs.Reading
import CodeFolding.Proofs.RunLives
import CodeFolding.Proofs.Runs
import CodeFolding.Proofs.Selection
import CodeFolding.Proofs.Sessions
import CodeFolding.Proofs.SideBySide
import CodeFolding.Proofs.SoundRegions
import CodeFolding.Proofs.Streams
import CodeFolding.Proofs.Tiling
import CodeFolding.Proofs.Tracking
import CodeFolding.Proofs.TrailingComments
import CodeFolding.Proofs.Translation
import CodeFolding.Proofs.Triggers
import CodeFolding.Proofs.Turns
import CodeFolding.Proofs.Typing
import CodeFolding.Proofs.Unclosed
import CodeFolding.Proofs.Walking
import CodeFolding.Region.Flatten
import CodeFolding.Region.Tree
import CodeFolding.Scan.CaseLabel
import CodeFolding.Scan.Directive
import CodeFolding.Scan.Header
import CodeFolding.Scan.Options
import CodeFolding.Scan.Run
import CodeFolding.Scan.State
import CodeFolding.Scan.Step
import CodeFolding.Session
import CodeFolding.Session.Debounce
import CodeFolding.Session.Host
import CodeFolding.Settings
import CodeFolding.Settings.Duration
import CodeFolding.Settings.Value
import CodeFolding.Span
import CodeFolding.Text.Blank
import CodeFolding.Text.Bytes
import CodeFolding.Text.Lines
import CodeFolding.Token
import CodeFolding.Token.Category
import CodeFolding.Token.Classify
import CodeFolding.Token.Lexeme
import CodeFolding.Token.Word
import CodeFolding.View.Fold
import CodeFolding.View.Label
import CodeFolding.View.Preview

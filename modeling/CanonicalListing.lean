import CanonicalListing.Text.Blank
import CanonicalListing.Text.Lines
import CanonicalListing.Text.Units
import CanonicalListing.Text.Utf8
import CanonicalListing.Fingerprint
import CanonicalListing.Numeral.Rounding
import CanonicalListing.Numeral
import CanonicalListing.Fault
import CanonicalListing.Failure
import CanonicalListing.Journal
import CanonicalListing.Instruction.Basic
import CanonicalListing.Instruction.Reader
import CanonicalListing.Listing.Basic
import CanonicalListing.Listing.Order
import CanonicalListing.Listing.Render
import CanonicalListing.Listing.Line
import CanonicalListing.Listing.Draft
import CanonicalListing.Listing.Reader
import CanonicalListing.Listing.Edit
import CanonicalListing.Capture
import CanonicalListing.Settings
import CanonicalListing.Command.Token
import CanonicalListing.Command.Options
import CanonicalListing.Command.Run
import CanonicalListing.FileTree
import CanonicalListing.Main
import CanonicalListing.Proofs.Lists
import CanonicalListing.Proofs.NameOrder
import CanonicalListing.Proofs.StableOrder
import CanonicalListing.Proofs.Trimming
import CanonicalListing.Proofs.LineBreaks
import CanonicalListing.Proofs.InstructionGrammar
import CanonicalListing.Proofs.LineKinds
import CanonicalListing.Proofs.Growth
import CanonicalListing.Proofs.Numbering
import CanonicalListing.Proofs.Blocks
import CanonicalListing.Proofs.Verdict
import CanonicalListing.Proofs.WellFormed
import CanonicalListing.Proofs.RoundTrip
import CanonicalListing.Proofs.LinkOrder
import CanonicalListing.Proofs.FlatRendering
import CanonicalListing.Proofs.Faithfulness
import CanonicalListing.Proofs.ChildRuns
import CanonicalListing.Proofs.ExitCodes
import CanonicalListing.Proofs.ExchangedLine
import CanonicalListing.Proofs.OperandNoise
import CanonicalListing.Proofs.EventOrder
import CanonicalListing.Proofs.ArgumentGrammar
import CanonicalListing.Proofs.OptionTokens
import CanonicalListing.Proofs.Service
import CanonicalListing.Proofs.OutputModes
import CanonicalListing.Proofs.Launches
import CanonicalListing.Proofs.ListingSources
import CanonicalListing.Proofs.Edits
import CanonicalListing.Proofs.SortedListings
import CanonicalListing.Proofs.Tracking
import CanonicalListing.Proofs.Conservation
import CanonicalListing.Proofs.OpenSymbol
import CanonicalListing.Proofs.Journaling
import CanonicalListing.Proofs.CodePoints
import CanonicalListing.Proofs.InstructionLayout
import CanonicalListing.Proofs.ArgumentForms
import CanonicalListing.Proofs.ArgumentReports
import CanonicalListing.Proofs.OptionOrder
import CanonicalListing.Proofs.Indentation
import CanonicalListing.Proofs.LocalChanges
import CanonicalListing.Proofs.HashArithmetic
import CanonicalListing.Proofs.LineEndings
import CanonicalListing.Proofs.InsertedBlanks
import CanonicalListing.Proofs.Spacing
import CanonicalListing.Proofs.TraceLimit
import CanonicalListing.Proofs.ReadingJournal
import CanonicalListing.Proofs.CaptureNotes
import CanonicalListing.Proofs.ByteSequences
import CanonicalListing.Proofs.WrittenText
import CanonicalListing.Proofs.FileTrees
import CanonicalListing.Proofs.NumeralGrammar
import CanonicalListing.Proofs.DoublePrecision
import CanonicalListing.Proofs.LimitNotation

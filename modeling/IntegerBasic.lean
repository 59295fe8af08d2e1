import IntegerBasic.Text.Blank
import IntegerBasic.Text.Alphanumeric
import IntegerBasic.Text.DecimalDigit
import IntegerBasic.Text.UpperCase
import IntegerBasic.Text.Lines
import IntegerBasic.Text.Hex
import IntegerBasic.Token.Listing
import IntegerBasic.Tree.Walk
import IntegerBasic.Grammar.Program
import IntegerBasic.Json.Reader
import IntegerBasic.Json.Printer
import IntegerBasic.Record.Listing
import IntegerBasic.Memory.Listing
import IntegerBasic.Analysis
import IntegerBasic.Renumber
import IntegerBasic.Text.Utf8
import IntegerBasic.CommandLine.Options
import IntegerBasic.CommandLine.Session
import IntegerBasic.CommandLine.Run
import IntegerBasic.Service
import IntegerBasic.Main
import IntegerBasic.Proofs.Grammar.RuleTraces
import IntegerBasic.Proofs.Tree.Traversal
import IntegerBasic.Proofs.Grammar.StatementTraces
import IntegerBasic.Proofs.Analysis.SyntaxErrors
import IntegerBasic.Proofs.Document.Patches
import IntegerBasic.Proofs.Grammar.Places
import IntegerBasic.Proofs.Renumber.References
import IntegerBasic.Proofs.Grammar.Numbers
import IntegerBasic.Proofs.Renumber.Primaries
import IntegerBasic.Proofs.Renumber.Changes
import IntegerBasic.Proofs.Renumber.LineOrder
import IntegerBasic.Proofs.Renumber.Neighbours
import IntegerBasic.Proofs.CommandLine.FailedCommands
import IntegerBasic.Proofs.Renumber.Guards
import IntegerBasic.Proofs.Grammar.Alignment
import IntegerBasic.Proofs.Grammar.Simulation
import IntegerBasic.Proofs.Grammar.StatementSimulation
import IntegerBasic.Proofs.Grammar.Outcomes
import IntegerBasic.Proofs.Text.Letters
import IntegerBasic.Proofs.Grammar.Runs
import IntegerBasic.Proofs.Grammar.Verdicts
import IntegerBasic.Proofs.Grammar.WordOrName
import IntegerBasic.Proofs.Grammar.FormVerdicts
import IntegerBasic.Proofs.Grammar.Tiling
import IntegerBasic.Proofs.Grammar.LeafOrder
import IntegerBasic.Proofs.Renumber.BranchOperands
import IntegerBasic.Proofs.Grammar.Phrases
import IntegerBasic.Proofs.Analysis.VariableTable
import IntegerBasic.Proofs.Analysis.DeclaredVariables
import IntegerBasic.Proofs.Analysis.Variables
import IntegerBasic.Proofs.Analysis.Branches
import IntegerBasic.Proofs.Grammar.Kinship
import IntegerBasic.Proofs.Grammar.LineSimulation
import IntegerBasic.Proofs.Grammar.Agreement
import IntegerBasic.Proofs.Renumber.ControlFlow
import IntegerBasic.Proofs.Grammar.Spelling
import IntegerBasic.Proofs.Grammar.StringComparisons
import IntegerBasic.Proofs.Record.ListedLeaves
import IntegerBasic.Proofs.Record.RenderedLines
import IntegerBasic.Proofs.Record.RoundTrip
import IntegerBasic.Proofs.Tree.Visits
import IntegerBasic.Proofs.Record.RestoredBytes
import IntegerBasic.Proofs.Memory.CheckedListing
import IntegerBasic.Proofs.Record.RecordFormat
import IntegerBasic.Proofs.Memory.Placement
import IntegerBasic.Proofs.Record.RecordEnds
import IntegerBasic.Proofs.Grammar.WidenedText
import IntegerBasic.Proofs.Record.WidenedLines
import IntegerBasic.Proofs.Grammar.LetterCase
import IntegerBasic.Proofs.Grammar.AppendedText
import IntegerBasic.Proofs.Grammar.MovedRules
import IntegerBasic.Proofs.Grammar.MovedStatements
import IntegerBasic.Proofs.Grammar.MovedLines
import IntegerBasic.Proofs.Grammar.NumberPlaces
import IntegerBasic.Proofs.Record.LetterCase
import IntegerBasic.Proofs.Record.LeadingGaps
import IntegerBasic.Proofs.Grammar.RestoredNumbers
import IntegerBasic.Proofs.Renumber.CanonicalNumbers
import IntegerBasic.Proofs.Renumber.RestoredLines
import IntegerBasic.Proofs.Renumber.Reversal
import IntegerBasic.Proofs.Memory.LoadedPrograms
import IntegerBasic.Proofs.Analysis.LineTable
import IntegerBasic.Proofs.Document.Substitution
import IntegerBasic.Proofs.Renumber.Frame
import IntegerBasic.Proofs.Memory.NewImages
import IntegerBasic.Proofs.Memory.CutImages
import IntegerBasic.Proofs.Memory.LineFeeds
import IntegerBasic.Proofs.Record.EscapePolicy
import IntegerBasic.Proofs.Grammar.Operands
import IntegerBasic.Proofs.Analysis.RangeErrors
import IntegerBasic.Proofs.Tree.Moves
import IntegerBasic.Proofs.Grammar.Progress
import IntegerBasic.Proofs.Record.PaddedTrees
import IntegerBasic.Proofs.Record.TokenTable
import IntegerBasic.Proofs.Analysis.VariableLists

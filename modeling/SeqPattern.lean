import SeqPattern.Symbol
import SeqPattern.Text.Blank
import SeqPattern.Text.Split
import SeqPattern.Text.Printable
import SeqPattern.Text.Quoted
import SeqPattern.Input
import SeqPattern.Pattern.Token
import SeqPattern.Pattern.Error
import SeqPattern.Pattern.Scan
import SeqPattern.Pattern.Rpn
import SeqPattern.Automaton.Basic
import SeqPattern.Automaton.Builder
import SeqPattern.Automaton.Compile
import SeqPattern.Automaton.Closure
import SeqPattern.Automaton.Dump
import SeqPattern.Automaton.Script
import SeqPattern.Text.Lines
import SeqPattern.Store
import SeqPattern.Search.Predict
import SeqPattern.Search.Oracles
import SeqPattern.Text.JsonText
import SeqPattern.Cli.Host
import SeqPattern.Cli.Args
import SeqPattern.Cli.MatchTool
import SeqPattern.Cli.RpnTool
import SeqPattern.Cli.PredictTool
import SeqPattern.Main
import SeqPattern.Proofs.AtomSpelling
import SeqPattern.Proofs.Arena
import SeqPattern.Proofs.Simulation
import SeqPattern.Proofs.BuildRuns
import SeqPattern.Proofs.Layout
import SeqPattern.Pattern.Regex
import SeqPattern.Proofs.Thompson
import SeqPattern.Proofs.Order
import SeqPattern.Proofs.Search
import SeqPattern.Proofs.Postfix
import SeqPattern.Proofs.AnyOracle
import SeqPattern.Proofs.Budget
import SeqPattern.Proofs.Grammar
import SeqPattern.Proofs.InRange
import SeqPattern.Proofs.Brackets
import SeqPattern.Proofs.Rounds
import SeqPattern.Proofs.Literal
import SeqPattern.Proofs.Queries
import SeqPattern.Proofs.Counts
import SeqPattern.Proofs.Reader
import SeqPattern.Proofs.ErrorSources
import SeqPattern.Proofs.Traversal
import SeqPattern.Proofs.DumpTraversal
import SeqPattern.Proofs.LineRoundTrip

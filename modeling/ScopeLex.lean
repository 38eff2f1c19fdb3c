import ScopeLex.Analysis.Run
import ScopeLex.Analysis.View
import ScopeLex.CommandLine.Reply
import ScopeLex.Main
import ScopeLex.Symbol.Call
import ScopeLex.Proofs.Comment.Extraction
import ScopeLex.Proofs.Analysis.Report
import ScopeLex.Proofs.Analysis.Comment
import ScopeLex.Proofs.Analysis.Scan
import ScopeLex.Proofs.Analysis.Replay
import ScopeLex.Proofs.Token.Quoted
import ScopeLex.Proofs.Token.Word
import ScopeLex.Proofs.Token.First
import ScopeLex.Proofs.Token.Spacing
import ScopeLex.Proofs.Comment.Respaced
import ScopeLex.Proofs.Text.Lines
import ScopeLex.Proofs.Analysis.RoundTrip
import ScopeLex.Proofs.Symbol.Step
import ScopeLex.Proofs.Symbol.Visibility
import ScopeLex.Proofs.Analysis.Room
import ScopeLex.Proofs.Analysis.Population
import ScopeLex.Proofs.Symbol.Block
import ScopeLex.Proofs.Analysis.Join
import ScopeLex.Proofs.Symbol.Layers
import ScopeLex.Proofs.Analysis.Error
import ScopeLex.Proofs.Analysis.Inert
import ScopeLex.Proofs.Comment.Returns
import ScopeLex.Proofs.Token.Trailing
import ScopeLex.Proofs.Analysis.Returns
import ScopeLex.Proofs.Symbol.Refusal
import ScopeLex.Proofs.Analysis.Influence
import ScopeLex.Proofs.Analysis.Address
import ScopeLex.Proofs.Token.Extent
import ScopeLex.Proofs.Regex.WordClass
import ScopeLex.Proofs.Token.Recognition
import ScopeLex.Proofs.Token.Priority
import ScopeLex.Proofs.Diagnostic.Caret
import ScopeLex.Proofs.Analysis.Level
import ScopeLex.Proofs.Symbol.Registration
import ScopeLex.Proofs.Analysis.Separator
import ScopeLex.Proofs.Analysis.StringContent
import ScopeLex.Proofs.Analysis.SourceOrder
import ScopeLex.Proofs.Text.Offset
import ScopeLex.Proofs.Symbol.Grouping
import ScopeLex.Proofs.Analysis.Log

import ScopeLex.Analysis.Run
import ScopeLex.Analysis.View
import ScopeLex.CommandLine.Options
import ScopeLex.Diagnostic.Render
import ScopeLex.Symbol.Report

/-!
# What the program answers

The sections that are shown and the exit code, as a function of the command
line and of the contents of its file.
-/
namespace ScopeLex.CommandLine

/-! ## Sections -/

/-- `line`, ended by a newline. -/
def endLine (line : String) : String := line ++ "\n"

/-- Each diagnostic beside its source, with an empty line after it. -/
def diagnosticSection (a : Analysis) (source : String) : String :=
  String.join (a.diagnostics.toList.map fun d => endLine (d.render source.toList))

/-- The tokens, one to a line. -/
def tokenSection (tokens : List Token) : String :=
  "\nTokens:\n" ++ String.join (tokens.map fun t => endLine t.describe)

def symbolSection (a : Analysis) : String := "\n" ++ a.table.report

/-- The analysis that the options ask for. -/
def analysisFor (o : Options) (source : String) : Analysis :=
  let a := analyzeWith (.empty o.firstAddress) [] source
  if o.has .constants then a.registerLiterals else a

/-- The sections that the options ask for. -/
def output (o : Options) (source : String) : String :=
  let a := analysisFor o source
  let tokens := if o.has .sourceOrder then a.sourceOrder else a.tokens.toList
  (if o.shows .diagnostics then diagnosticSection a source else "") ++
    (if o.shows .tokens then tokenSection tokens else "") ++
    (if o.shows .symbols then symbolSection a else "")

/-! ## Messages -/

/-- How often messages have to be asked for until such a record is shown. -/
def Verbosity.threshold : Verbosity → Nat
  | .warn => 1
  | .debug => 2
  | .trace => 3

/-- The log records that the options ask for. -/
def messages (o : Options) (source : String) : List String :=
  ((analysisFor o source).log.toList.filter fun r =>
    Verbosity.threshold r.verbosity ≤ o.verbosity).map Record.describe

/-! ## The reply -/

/-- Exit code, output, and messages beside the output. -/
structure Reply where
  exitCode : Nat
  output : String
  messages : List String
  deriving DecidableEq, Repr

/-- The reply to a file and its options; `read` gives the contents of a file that can be
read. -/
def respond (file : String) (o : Options) (read : String → Option ByteArray) : Reply :=
  match (read file).bind String.fromUTF8? with
  | some source => ⟨0, output o source, messages o source⟩
  | none => ⟨1, "", ["cannot read '" ++ file ++ "' as text"]⟩

/-- The reply to a command line. -/
def reply (args : List String) (read : String → Option ByteArray) : Reply :=
  match readArguments args with
  | .error e => ⟨2, "", [e.message]⟩
  | .ok (file, o) => respond file o read

end ScopeLex.CommandLine

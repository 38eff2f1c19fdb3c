import ScopeLex.Symbol.Table

/-!
# The command line

One file, flags that choose what is shown, and an option with a number. Each
flag may be given once, except for the one that asks for more messages; after
`--` everything is a file name.
-/
namespace ScopeLex.CommandLine

/-! ## Arguments -/

/-- What can be switched on, once. -/
inductive Flag where
  | tokens | symbols | diagnostics | constants | sourceOrder
  deriving DecidableEq, Repr

namespace Flag

def name : Flag → String
  | .tokens => "--tokens"
  | .symbols => "--symbols"
  | .diagnostics => "--diagnostics"
  | .constants => "--constants"
  | .sourceOrder => "--source-order"

def all : List Flag := [.tokens, .symbols, .diagnostics, .constants, .sourceOrder]

def ofName? (name : String) : Option Flag := all.find? (·.name == name)

end Flag

/-- One argument, taken by itself. -/
inductive Argument where
  | file (name : String)
  | flag (f : Flag)
  /-- `-v`, `-vv`, … or `--verbose`. -/
  | verbose (times : Nat)
  /-- `--base-address`, with its value if they are one argument. -/
  | baseAddress (value : Option String)
  /-- `--`. -/
  | endOfOptions
  | unknown (text : String)
  deriving DecidableEq, Repr

/-- What follows `start` in `text`, if `text` begins with it. -/
def after? (start text : String) : Option String :=
  if start.toList.isPrefixOf text.toList then
    some (String.ofList (text.toList.drop start.length))
  else none

/-- Text that begins with `-` and is not `-` alone is an option. -/
def Argument.ofString (text : String) : Argument :=
  if text == "--" then .endOfOptions
  else if text == "--verbose" then .verbose 1
  else if text == "--base-address" then .baseAddress none
  else match Flag.ofName? text, after? "--base-address=" text, text.toList with
    | some f, _, _ => .flag f
    | _, some value, _ => .baseAddress (some value)
    | _, _, '-' :: c :: letters =>
      if (c :: letters).all (· == 'v') then .verbose (letters.length + 1) else .unknown text
    | _, _, _ => .file text

/-! ## Options -/

/-- What makes a command line unusable. -/
inductive UsageError where
  | noFile
  | emptyFile
  | extraFile (name : String)
  | repeatedOption (name : String)
  | noValue
  | badNumber (text : String)
  | unknownOption (text : String)
  deriving DecidableEq, Repr

def UsageError.message : UsageError → String
  | .noFile => "no FILE given"
  | .emptyFile => "the name of FILE is empty"
  | .extraFile name => "unexpected argument '" ++ name ++ "'"
  | .repeatedOption name => "'" ++ name ++ "' given more than once"
  | .noValue => "no value given for '--base-address'"
  | .badNumber text => "'" ++ text ++ "' is not a number for '--base-address'"
  | .unknownOption text => "unknown option '" ++ text ++ "'"

/-- Numbers are below this bound, the 64th power of two. -/
def numberBound : Nat := 0x10000000000000000

/-- The digits of a number that may have a plus sign in front. -/
def unsigned : List Char → List Char
  | '+' :: digits => digits
  | digits => digits

/-- The value of decimal digits. -/
def decimalValue (digits : List Char) : Nat :=
  digits.foldl (fun n d => 10 * n + (d.toNat - '0'.toNat)) 0

/-- A number in decimal digits, with or without a plus sign. -/
def readNumber? (text : String) : Option Nat :=
  let digits := unsigned text.toList
  if digits ≠ [] ∧ digits.all Char.isDigit ∧ decimalValue digits < numberBound then
    some (decimalValue digits)
  else none

/-- What a command line has said so far. -/
structure Options where
  file : Option String
  flags : List Flag
  baseAddress : Option Nat
  verbosity : Nat
  deriving DecidableEq, Repr

namespace Options

/-- Before any argument. -/
def start : Options := ⟨none, [], none, 0⟩

def has (o : Options) (f : Flag) : Bool := o.flags.contains f

/-- Without a choice of sections all of them are shown. -/
def shows (o : Options) (part : Flag) : Bool :=
  o.has part || !(o.has .tokens || o.has .symbols || o.has .diagnostics)

/-- The address of the first symbol. -/
def firstAddress (o : Options) : Nat := o.baseAddress.getD SymbolTable.defaultBaseAddress

/-! ## Reading them -/

def addFile (o : Options) (name : String) : Except UsageError Options :=
  if o.file.isSome then .error (.extraFile name)
  else if name.isEmpty then .error .emptyFile
  else .ok { o with file := some name }

def addFlag (o : Options) (f : Flag) : Except UsageError Options :=
  if o.has f then .error (.repeatedOption f.name) else .ok { o with flags := f :: o.flags }

def addBaseAddress (o : Options) (value : String) : Except UsageError Options :=
  if o.baseAddress.isSome then .error (.repeatedOption "--base-address")
  else match readNumber? value with
    | some n => .ok { o with baseAddress := some n }
    | none => .error (.badNumber value)

/-- Read the arguments that follow those in `o`. -/
def addAll (o : Options) : List String → Except UsageError Options
  | [] => .ok o
  | text :: rest =>
    match Argument.ofString text with
    | .file name => (o.addFile name).bind (addAll · rest)
    | .flag f => (o.addFlag f).bind (addAll · rest)
    | .verbose times => addAll { o with verbosity := o.verbosity + times } rest
    | .baseAddress (some value) => (o.addBaseAddress value).bind (addAll · rest)
    | .baseAddress none =>
      match rest with
      | [] => .error .noValue
      | value :: rest => (o.addBaseAddress value).bind (addAll · rest)
    | .endOfOptions => rest.foldlM addFile o
    | .unknown text => .error (.unknownOption text)

end Options

/-- The file to read and the options of a command line. -/
def readArguments (args : List String) : Except UsageError (String × Options) :=
  (Options.start.addAll args).bind fun o =>
    match o.file with
    | some file => .ok (file, o)
    | none => .error .noFile

end ScopeLex.CommandLine

import ScopeLex.Text.Layout

/-!
# Tokens

The kinds of token, the reserved words and the data types they name, and a
token as it was found on its line.
-/
namespace ScopeLex

open Text (Caption)

/-! ## Kinds -/

inductive TokenKind where
  | stringLiteral | keyword | operator | delimiter | decimal | integer | charLiteral | identifier
  | comment
  deriving DecidableEq, Repr

namespace TokenKind

def name : TokenKind → String
  | .stringLiteral => "STRING_LITERAL"
  | .keyword => "KEYWORD"
  | .operator => "OPERATOR"
  | .delimiter => "DELIMITER"
  | .decimal => "DECIMAL"
  | .integer => "INTEGER"
  | .charLiteral => "CHAR_LITERAL"
  | .identifier => "IDENTIFIER"
  | .comment => "COMMENT"

/-- Every kind, in the order in which kinds are listed. -/
def all : List TokenKind :=
  [.stringLiteral, .keyword, .operator, .delimiter, .decimal, .integer, .charLiteral, .identifier,
   .comment]

def ofName? (name : String) : Option TokenKind := all.find? (·.name == name)

theorem ofName?_name (kind : TokenKind) : ofName? kind.name = some kind := by
  cases kind <;> decide

def caption (kind : TokenKind) : Caption := .label kind.name

end TokenKind

/-! ## Words and signs -/

/-- The type a declaration can start with. -/
inductive Datatype where
  | int | decimal | bool | char
  deriving DecidableEq, Repr

namespace Datatype

def name : Datatype → String
  | .int => "int"
  | .decimal => "decimal"
  | .bool => "bool"
  | .char => "char"

def all : List Datatype := [.int, .decimal, .bool, .char]

/-- The type that a keyword names. -/
def ofName? (name : String) : Option Datatype := all.find? (·.name == name)

theorem ofName?_name (type : Datatype) : ofName? type.name = some type := by
  cases type <;> decide

def caption (type : Datatype) : Caption := .label type.name

end Datatype

/-- The words that read and write. -/
def ioKeywords : List String := ["read", "write"]

/-- Every reserved word. -/
def keywords : List String :=
  Datatype.all.map Datatype.name ++ ["if", "else", "true", "false"] ++ ioKeywords

def arithmeticOperators : List String := ["+", "-", "*", "/", "%", "^"]

/-! ## Tokens -/

/-- A lexeme of some kind on a line. -/
structure Token where
  kind : TokenKind
  lexeme : String
  line : Nat
  deriving DecidableEq, Repr

namespace Token

/-- One of the arithmetic signs. -/
def isArithmetic (t : Token) : Bool :=
  t.kind == .operator && arithmeticOperators.contains t.lexeme

/-- A reserved word that reads or writes. -/
def isIo (t : Token) : Bool := t.kind == .keyword && ioKeywords.contains t.lexeme

def describe (t : Token) : String :=
  "Token(type=" ++ t.kind.name ++ ", lexeme=" ++ t.lexeme ++ ", line=" ++ toString t.line ++ ")"

def caption (t : Token) : Caption := .sentence t.describe

end Token

end ScopeLex

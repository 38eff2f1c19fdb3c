import ScopeLex.Token.Basic

/-!
# Symbols

What a symbol stands for, where it is visible, and its line in a report.
-/
namespace ScopeLex

open Text (Caption)

/-! ## Categories -/

/-- What a symbol stands for. A declared variable has its type as category. -/
inductive Category where
  | datatype (type : Datatype)
  | identifier | stringConstant | numericConstant | comment | arithmeticOperator | io
  deriving DecidableEq, Repr

namespace Category

def name : Category → String
  | .datatype type => type.name
  | .identifier => "identifier"
  | .stringConstant => "string constant"
  | .numericConstant => "numeric constant"
  | .comment => "comment"
  | .arithmeticOperator => "arithmetic operator"
  | .io => "io"

def all : List Category :=
  Datatype.all.map .datatype ++
    [.identifier, .stringConstant, .numericConstant, .comment, .arithmeticOperator, .io]

def ofName? (name : String) : Option Category := all.find? (·.name == name)

theorem ofName?_name (category : Category) : ofName? category.name = some category := by
  cases category with
  | datatype type => cases type <;> decide
  | _ => decide

/-- Variables; only their names have to look like identifiers. -/
def isVariable : Category → Bool
  | .datatype _ | .identifier => true
  | _ => false

def caption (category : Category) : Caption := .label category.name

end Category

/-- A lowercase letter, then lowercase letters, digits and underscores. -/
def isIdentifier (name : String) : Bool :=
  match name.toList with
  | [] => false
  | c :: rest => c.isLower && rest.all fun d => d.isLower || d.isDigit || d == '_'

/-! ## Scope tags -/

/-- Where a symbol is said to be visible: everywhere, or in its block. -/
inductive ScopeTag where
  | global | block
  deriving DecidableEq, Repr

namespace ScopeTag

/-- Level 1 is the global scope. -/
def forLevel (level : Nat) : ScopeTag := if level ≤ 1 then .global else .block

def name : ScopeTag → String
  | .global => "global"
  | .block => "local"

def ofName? (name : String) : Option ScopeTag := [global, block].find? (·.name == name)

def caption (tag : ScopeTag) : Caption := .label tag.name

end ScopeTag

/-! ## Symbols -/

/-- A registered name, with the level of the block that holds it. -/
structure Symbol where
  name : String
  category : Category
  scope : ScopeTag
  level : Nat
  address : Nat
  deriving DecidableEq, Repr

namespace Symbol

/-- The symbol's line in a report, which ends in a blank. -/
def describe (s : Symbol) : String :=
  let field (width : Nat) (caption : Caption) := caption.fit (.left width)
  "Name: " ++ field 20 (.label s.name) ++ " | Type: " ++ field 20 s.category.caption ++
    " | Scope: " ++ field 10 s.scope.caption ++ " "

end Symbol

end ScopeLex

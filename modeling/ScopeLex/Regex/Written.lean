import ScopeLex.Regex.Basic

/-!
# The written form of a regular expression

The usual notation: an alternative inside a sequence and everything under a
loop that is not one character or a group stands in `(?:…)`.
-/
namespace ScopeLex

/-- Characters that mean themselves only after a backslash. -/
def isMeta (c : Char) : Bool := "\\.+*?()|[]\x7b\x7d^$".toList.contains c

namespace CharSet

/-- One range inside brackets. -/
def writtenRange (r : Char × Char) : List Char :=
  if r.1 = r.2 then [r.1] else [r.1, '-', r.2]

def written : CharSet → List Char
  | .just c => if isMeta c then ['\\', c] else [c]
  | .inLine => ['.']
  | .anything => "(?s:.)".toList
  | .within ranges => '[' :: ranges.flatMap writtenRange ++ [']']
  | .outside ranges => '[' :: '^' :: ranges.flatMap writtenRange ++ [']']

end CharSet

namespace Regex

/-- Wrap a part that would fall apart in its surroundings. -/
def enclosed (wrap : Bool) (part : List Char) : List Char :=
  if wrap then "(?:".toList ++ part ++ [')'] else part

def isAlt : Regex → Bool
  | .alt _ _ => true
  | _ => false

/-- Can stand under a loop as it is. -/
def isAtom : Regex → Bool
  | .one _ | .group _ => true
  | _ => false

/-- The number of iterations of a loop. -/
def writtenBounds (least : Nat) : Option Nat → List Char
  | none =>
    match least with
    | 0 => ['*']
    | 1 => ['+']
    | n => '\x7b' :: (toString n).toList ++ [',', '\x7d']
  | some most => '\x7b' :: (toString least).toList ++ ',' :: (toString most).toList ++ ['\x7d']

def writtenChars : Regex → List Char
  | .empty => []
  | .one set => set.written
  | .boundary => ['\\', 'b']
  | .seq first second =>
    enclosed first.isAlt first.writtenChars ++ enclosed second.isAlt second.writtenChars
  | .alt first second => first.writtenChars ++ '|' :: second.writtenChars
  | .group body => '(' :: body.writtenChars ++ [')']
  | .loop body least most greedy =>
    enclosed (!body.isAtom) body.writtenChars ++ writtenBounds least most ++
      (if greedy then [] else ['?'])

/-- The pattern as it is written. -/
def written (r : Regex) : String := String.ofList r.writtenChars

end Regex

end ScopeLex

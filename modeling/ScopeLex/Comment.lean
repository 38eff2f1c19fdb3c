import ScopeLex.Regex.Match
import ScopeLex.Text.Line

/-!
# Comments

Block comments are looked for in the whole text, over line ends and with no
regard to quotes: each search begins where the previous comment ends and takes
the leftmost match of a lazy pattern. A line comment is the rest of a line from
its first `//`.

* `allFrom_cons_of_match`, `allFrom_cons_of_no_match`: how the search goes on.
* `Place.afterAll_eq`: places count bytes and newlines.
* `splitMarker_append`: code and comment together are the line.
* `startsWithMarker_of_ne_nil`: a line comment begins with its marker.
-/
namespace ScopeLex

open Text (byteSize byteSize_cons)

/-! ## Block comments -/

/-- A place in a text, as byte offset and line. -/
structure Place where
  offset : Nat
  line : Nat
  deriving DecidableEq, Repr

/-- The place one character `c` further on. -/
def Place.after (place : Place) (c : Char) : Place :=
  ⟨place.offset + c.utf8Size, if c = '\n' then place.line + 1 else place.line⟩

/-- The place a whole text further on. -/
def Place.afterAll (place : Place) (text : List Char) : Place := text.foldl Place.after place

@[simp] theorem Place.afterAll_nil (place : Place) : place.afterAll [] = place := rfl

@[simp] theorem Place.afterAll_cons (place : Place) (c : Char) (text : List Char) :
    place.afterAll (c :: text) = (place.after c).afterAll text := rfl

/-- A place counts the bytes and the newlines in front of it. -/
theorem Place.afterAll_eq (place : Place) (text : List Char) :
    place.afterAll text = ⟨place.offset + byteSize text, place.line + text.count '\n'⟩ := by
  induction text generalizing place with
  | nil => simp
  | cons c text ih =>
    rw [afterAll_cons, ih]
    by_cases hc : c = '\n'
    · subst hc; simp only [after, byteSize_cons, List.count_cons_self, if_true]; congr 1 <;> omega
    · simp only [after, byteSize_cons, List.count_cons_of_ne hc, if_neg hc]; congr 1; omega

/-- A block comment and where it begins. -/
structure BlockComment where
  start : Place
  text : List Char
  deriving DecidableEq, Repr

namespace BlockComment

/-- From `/*` to the nearest `*/` after it. -/
def regex : Regex :=
  .seq (.chars ['/', '*']) (.seq (.lazyStar (.one .anything)) (.chars ['*', '/']))

def firstLine (b : BlockComment) : Nat := b.start.line

def lastLine (b : BlockComment) : Nat := b.start.line + b.text.count '\n'

/-- The byte offset at which the comment ends. -/
def stop (b : BlockComment) : Nat := b.start.offset + byteSize b.text

/-- The first and the last line that hold a part of the comment. -/
def lineRange (b : BlockComment) : Nat × Nat := (b.firstLine, b.lastLine)

/-- Search `text`, which begins at `place`, after its first `skip` characters;
the comments are appended to `found`. -/
def search (place : Place) (skip : Nat) (found : Array BlockComment) :
    List Char → Array BlockComment
  | [] => found
  | c :: text =>
    match skip with
    | skip + 1 => search (place.after c) skip found text
    | 0 =>
      match regex.matchLength? (c :: text) with
      | some (n + 1) =>
        search (place.after c) n (found.push ⟨place, (c :: text).take (n + 1)⟩) text
      | _ => search (place.after c) 0 found text

/-- The block comments of a text that begins at `place`, from left to right. -/
def allFrom (place : Place) (text : List Char) : List BlockComment :=
  (search place 0 #[] text).toList

/-- The block comments of a whole text. -/
def all (text : List Char) : List BlockComment := allFrom ⟨0, 1⟩ text

theorem toList_search (place : Place) (skip : Nat) (found : Array BlockComment)
    (text : List Char) :
    (search place skip found text).toList =
      found.toList ++ allFrom (place.afterAll (text.take skip)) (text.drop skip) := by
  induction text generalizing place skip found with
  | nil => simp [search, allFrom]
  | cons c text ih =>
    cases skip with
    | succ skip => simp only [search]; rw [ih]; rfl
    | zero =>
      simp only [List.take_zero, List.drop_zero, Place.afterAll_nil, allFrom, search]
      split
      · rw [ih, ih]; simp
      · rw [ih, ih _ _ #[]]; simp

@[simp] theorem allFrom_nil (place : Place) : allFrom place [] = [] := rfl

/-- Where the pattern matches, the search goes on after the match. -/
theorem allFrom_cons_of_match {c : Char} {text : List Char} {n : Nat}
    (h : regex.matchLength? (c :: text) = some (n + 1)) (place : Place) :
    allFrom place (c :: text) =
      ⟨place, (c :: text).take (n + 1)⟩ ::
        allFrom (place.afterAll ((c :: text).take (n + 1))) ((c :: text).drop (n + 1)) := by
  simp only [allFrom, search, h]
  rw [toList_search]
  rfl

/-- Elsewhere it goes on with the next character. -/
theorem allFrom_cons_of_no_match {c : Char} {text : List Char}
    (h : ∀ n, regex.matchLength? (c :: text) ≠ some (n + 1)) (place : Place) :
    allFrom place (c :: text) = allFrom (place.after c) text := by
  simp only [allFrom, search]

end BlockComment

/-! ## Line comments -/

/-- A line comment starts here. -/
def startsWithMarker : List Char → Bool
  | '/' :: '/' :: _ => true
  | _ => false

/-- Split the rest of a line at its first marker; `before` holds the characters
already passed, in reverse. -/
def splitMarkerFrom (before : List Char) : List Char → List Char × List Char
  | [] => (before.reverse, [])
  | c :: text =>
    if startsWithMarker (c :: text) then (before.reverse, c :: text)
    else splitMarkerFrom (c :: before) text

/-- The code of a line and its comment, which is empty if there is none. -/
def splitMarker (line : List Char) : List Char × List Char := splitMarkerFrom [] line

theorem splitMarkerFrom_eq (before line : List Char) :
    splitMarkerFrom before line =
      (before.reverse ++ (splitMarker line).1, (splitMarker line).2) := by
  induction line generalizing before with
  | nil => simp [splitMarker, splitMarkerFrom]
  | cons c text ih =>
    simp only [splitMarker, splitMarkerFrom]
    split
    · simp
    · rw [ih, ih [c]]; simp

@[simp] theorem splitMarker_nil : splitMarker [] = ([], []) := rfl

theorem splitMarker_cons (c : Char) (text : List Char) :
    splitMarker (c :: text) =
      if startsWithMarker (c :: text) then ([], c :: text)
      else (c :: (splitMarker text).1, (splitMarker text).2) := by
  simp only [splitMarker, splitMarkerFrom]
  split
  · rfl
  · rw [splitMarkerFrom_eq]; rfl

theorem splitMarker_append (line : List Char) :
    (splitMarker line).1 ++ (splitMarker line).2 = line := by
  induction line with
  | nil => rfl
  | cons c text ih =>
    rw [splitMarker_cons]
    split
    · rfl
    · simp [ih]

theorem startsWithMarker_of_ne_nil {line : List Char} (h : (splitMarker line).2 ≠ []) :
    startsWithMarker (splitMarker line).2 = true := by
  induction line with
  | nil => exact absurd rfl h
  | cons c text ih =>
    rw [splitMarker_cons] at h ⊢
    split
    · assumption
    · rename_i hc
      rw [if_neg hc] at h
      exact ih h

end ScopeLex

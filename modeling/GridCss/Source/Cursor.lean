import GridCss.Text.Blank

/-!
# Positions and cursors

A position names the line and the column of a character, both counted from one; columns count
characters. A cursor stands between two characters of a text.
-/

namespace GridCss

structure Position where
  line : Nat := 1
  column : Nat := 1
  deriving DecidableEq, Repr, Inhabited

namespace Position

/-- The position after a character. -/
def advance (p : Position) (c : Char) : Position :=
  if c = '\n' then ⟨p.line + 1, 1⟩ else ⟨p.line, p.column + 1⟩

/-- The position after a text. -/
def advanceAll (p : Position) (cs : List Char) : Position :=
  cs.foldl advance p

@[simp] theorem advanceAll_nil (p : Position) : p.advanceAll [] = p := rfl

@[simp] theorem advanceAll_cons (p : Position) (c : Char) (cs : List Char) :
    p.advanceAll (c :: cs) = (p.advance c).advanceAll cs := rfl

theorem advanceAll_append (p : Position) (cs ds : List Char) :
    p.advanceAll (cs ++ ds) = (p.advanceAll cs).advanceAll ds := List.foldl_append

end Position

/-- A place in a text: the character before it, the text after it and its position. -/
structure Cursor where
  prev : Option Char := none
  rest : List Char
  position : Position := {}
  deriving DecidableEq, Repr

namespace Cursor

def ofString (source : String) : Cursor := { rest := source.toList }

def atEnd (k : Cursor) : Bool := k.rest.isEmpty

def peek (k : Cursor) : Option Char := k.rest.head?

/-- The character `n` places after the next one. -/
def peekAt (k : Cursor) (n : Nat) : Option Char := k.rest[n]?

/-- Over one character; at the end nothing moves. -/
def next (k : Cursor) : Cursor :=
  match k.rest with
  | [] => k
  | c :: cs => ⟨some c, cs, k.position.advance c⟩

/-- Over the next character if it is `c`. -/
def eat (c : Char) (k : Cursor) : Bool × Cursor :=
  if k.peek = some c then (true, k.next) else (false, k)

def startsWith (k : Cursor) (text : String) : Bool :=
  text.toList.isPrefixOf k.rest

/-- Over all blanks up to the next other character. -/
def skipBlanks (k : Cursor) : Cursor :=
  (k.rest.takeWhile Text.isBlank).foldl (fun k _ => k.next) k

end Cursor
end GridCss

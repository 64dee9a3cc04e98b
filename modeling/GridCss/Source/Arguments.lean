import GridCss.Source.Tree
import GridCss.Value.Scalar

/-!
# Reading argument lists

An argument list is read one character at a time, from behind its opening parenthesis to its
closing one. Brackets are copied with everything up to the bracket that closes them, quotes are
dropped around what they enclose, and `@name(` starts the argument list of a nested call. Text being
read is kept with its latest character first.
-/

namespace GridCss.Source

/-- The text of characters kept latest first. -/
def textOf (read : List Char) : String := String.ofList read.reverse

/-- An argument list of which only a part has been read. -/
structure ArgumentDraft where
  groups : List (List Argument) := []
  group : List Argument := []
  literal : List Char := []
  deriving Inhabited

namespace ArgumentDraft

def push (d : ArgumentDraft) (c : Char) : ArgumentDraft := { d with literal := c :: d.literal }

/-- The argument read so far. Text that stands alone is trimmed and becomes a number if it is
numeric; text behind a call loses the blanks at its end. Nothing is left of an empty text. -/
def finished (d : ArgumentDraft) : List Argument :=
  if d.group.isEmpty then
    let trimmed := Text.trim (textOf d.literal)
    match parseNumber trimmed with
    | some x => [.number x]
    | none => if trimmed.isEmpty then [] else [.text trimmed]
  else
    let trimmed := Text.trimEnd (textOf d.literal)
    if trimmed.isEmpty then d.group else d.group ++ [.text trimmed]

def comma (d : ArgumentDraft) : ArgumentDraft := { groups := d.groups ++ [d.finished] }

def close (d : ArgumentDraft) : List (List Argument) :=
  let last := d.finished
  -- An empty list has no arguments, not one that is empty.
  if d.groups.isEmpty && last.isEmpty then [] else d.groups ++ [last]

/-- In front of a call the text read so far becomes a piece of the argument, without the blanks at
its start if it is the first piece. -/
def cut (d : ArgumentDraft) : ArgumentDraft :=
  let text := textOf d.literal
  let text := if d.group.isEmpty then Text.trimStart text else text
  { d with group := if text.isEmpty then d.group else d.group ++ [.text text], literal := [] }

def addCall (d : ArgumentDraft) (name : String) (arguments : List (List Argument)) :
    ArgumentDraft :=
  { d with group := d.group ++ [.call name arguments] }

end ArgumentDraft

inductive ArgumentMode where
  | plain
  -- behind `@`, with the name characters since
  | sign (name : List Char)
  -- with the character that closes the brackets and those that close the ones around
  | bracket (close : Char) (outer : List Char)
  | quote (mark : Char) (escaped : Bool)
  deriving DecidableEq, Repr, Inhabited

/-- The state of reading: the innermost list, and the calls around it with the lists that they
interrupted, innermost first. -/
structure ArgumentReader where
  mode : ArgumentMode := .plain
  draft : ArgumentDraft := {}
  callers : List (String × ArgumentDraft) := []
  deriving Inhabited

def closer? : Char → Option Char
  | '(' => some ')'
  | '[' => some ']'
  | '{' => some '}'
  | _ => none

namespace ArgumentReader

def push (r : ArgumentReader) (c : Char) : ArgumentReader := { r with draft := r.draft.push c }

def openCall (r : ArgumentReader) (name : String) : ArgumentReader :=
  { callers := (name, r.draft.cut) :: r.callers }

/-- At the closing parenthesis of the innermost list. The outermost list is the result. -/
def closeCall (r : ArgumentReader) : ArgumentReader ⊕ List (List Argument) :=
  match r.callers with
  | [] => .inr r.draft.close
  | (name, draft) :: callers =>
    .inl { draft := draft.addCall name r.draft.close, callers := callers }

def stepPlain (r : ArgumentReader) (c : Char) : ArgumentReader ⊕ List (List Argument) :=
  match closer? c with
  | some close => .inl { r.push c with mode := .bracket close [] }
  | none =>
    if c = '\'' || c = '"' then .inl { r with mode := .quote c false }
    else if c = '@' then .inl { r with mode := .sign [] }
    else if c = ',' then .inl { r with draft := r.draft.comma }
    else if c = ')' then r.closeCall
    else .inl (r.push c)

/-- One character of an argument list; the second case is the finished list. -/
def step (r : ArgumentReader) (c : Char) : ArgumentReader ⊕ List (List Argument) :=
  match r.mode with
  | .plain => r.stepPlain c
  | .sign name =>
    if Text.isNameChar c then .inl { r with mode := .sign (c :: name) }
    else if c = '(' && !name.isEmpty then .inl (r.openCall (textOf name))
    else
      -- No call: the at sign and the name are text.
      let literal := name ++ '@' :: r.draft.literal
      stepPlain { r with mode := .plain, draft := { r.draft with literal := literal } } c
  | .bracket close outer =>
    let r := r.push c
    if c = close then
      match outer with
      | [] => .inl { r with mode := .plain }
      | next :: outer => .inl { r with mode := .bracket next outer }
    else
      match closer? c with
      | some inner => .inl { r with mode := .bracket inner (close :: outer) }
      | none => .inl r
  | .quote mark escaped =>
    if c = mark && !escaped then .inl { r with mode := .plain }
    else .inl { r.push c with mode := .quote mark (c == '\\') }

end ArgumentReader
end GridCss.Source

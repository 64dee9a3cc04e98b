import GridCss.Source.Block

/-!
# Reading a source

The reader takes one character after the other and knows the position of each. Its state is the
list of items read so far, the conditionals around that list and what the next character is part
of. Reading a text is thus the same as reading its first part and then, from the state reached,
the second.
-/

namespace GridCss.Source

/-- A conditional whose closing brace has not been read, with the items in front of it. -/
structure OpenConditional where
  name : String
  arguments : List (List Argument)
  before : List Item
  deriving Inhabited

/-- What the next character of a list of items is part of. -/
inductive Mode where
  | idle
  | slash (first : Position)
  | comment (comment : CommentReader)
  | declaration (declaration : DeclarationReader)
  | selector (id : Nat) (text : List Char)
  | pseudo (id : Nat) (selector : String) (block : BlockReader)
  -- behind `@`, with the name characters since
  | word (name : List Char)
  | header (name : String) (arguments : Option (List (List Argument)))
  | arguments (name : String) (arguments : ArgumentReader)
  -- behind `@keyframes`, in the blanks or in the name that follows
  | keyframesName (name : List Char)
  | keyframesHeader (name : String)
  | keyframes (name : String) (steps : StepsReader)
  deriving Inhabited

/-- The state of reading a source: the innermost list of items, the conditionals around it,
innermost first, and the number of the next pseudo block. -/
structure Reader where
  mode : Mode := .idle
  items : List Item := []
  enclosing : List OpenConditional := []
  nextId : Nat := 0
  deriving Inhabited

namespace Reader

def enter (r : Reader) (mode : Mode) : Reader := { r with mode := mode }

def add (r : Reader) (item : Item) : Reader :=
  { r with mode := .idle, items := r.items ++ [item] }

def openBlock (r : Reader) (name : String) (arguments : List (List Argument)) : Reader :=
  { r with mode := .idle, items := [], enclosing := ⟨name, arguments, r.items⟩ :: r.enclosing }

def closeBlock? (r : Reader) : Option Reader :=
  match r.enclosing with
  | [] => none
  | ⟨name, arguments, before⟩ :: enclosing =>
    some { r with
      mode := .idle
      items := before ++ [.conditional name arguments r.items]
      enclosing := enclosing }

def stepIdle (r : Reader) (p : Position) (c : Char) : Except SourceError Reader :=
  if Text.isBlank c || c = ';' then .ok r
  else if c = '#' then .ok (r.enter (.comment (.line [])))
  else if c = '/' then .ok (r.enter (.slash p))
  else if c = ':' then .ok { r with mode := .selector r.nextId [':'], nextId := r.nextId + 1 }
  else if c = '@' then .ok (r.enter (.word []))
  else
    -- A brace that closes nothing is no property name.
    match if c = '}' then r.closeBlock? else none with
    | some r => .ok r
    | none =>
      match DeclarationReader.start p c with
      | .error e => .error e
      | .ok d => .ok (r.enter (.declaration d))

/-- Behind the name of a conditional: blanks, one list of arguments, and the opening brace. -/
def stepHeader (r : Reader) (name : String) (arguments : Option (List (List Argument)))
    (p : Position) (c : Char) : Except SourceError Reader :=
  if Text.isBlank c then .ok (r.enter (.header name arguments))
  else if c = '{' then .ok (r.openBlock name (arguments.getD []))
  else if c = '(' && arguments.isNone then .ok (r.enter (.arguments name {}))
  else .error ⟨.expectedBlock, p⟩

def stepKeyframesName (r : Reader) (name : List Char) (p : Position) (c : Char) :
    Except SourceError Reader :=
  if Text.isBlank c then
    .ok (r.enter (if name.isEmpty then .keyframesName [] else .keyframesHeader (textOf name)))
  else if c = '{' then
    if name.isEmpty then .error ⟨.missingKeyframesName, p⟩
    else .ok (r.enter (.keyframes (textOf name) {}))
  else .ok (r.enter (.keyframesName (c :: name)))

def step (r : Reader) (p : Position) (c : Char) : Except SourceError Reader :=
  match r.mode with
  | .idle => r.stepIdle p c
  | .slash first =>
    match CommentReader.behindSlash? c with
    | some comment => .ok (r.enter (.comment comment))
    | none => .error ⟨.badPropertyName, first⟩
  | .comment comment =>
    match comment.step c with
    | .inl comment => .ok (r.enter (.comment comment))
    | .inr text => .ok (r.add (.comment text))
  | .declaration declaration =>
    match declaration.step p c with
    | .error e => .error e
    | .ok (.more declaration) => .ok (r.enter (.declaration declaration))
    | .ok (.done d) => .ok (r.add (.declaration d))
    -- The brace that ends the value is for what is around the declaration.
    | .ok (.closed d) => (r.add (.declaration d)).stepIdle p c
  | .selector id text =>
    if c = '{' then .ok (r.enter (.pseudo id (textOf text) {}))
    else if Text.isBlank c then .ok r
    else .ok (r.enter (.selector id (c :: text)))
  | .pseudo id selector block =>
    match block.step p c with
    | .error e => .error e
    | .ok (.inl block) => .ok (r.enter (.pseudo id selector block))
    | .ok (.inr declarations) => .ok (r.add (.pseudo ⟨id, selector, declarations⟩))
  | .word name =>
    if Text.isNameChar c then .ok (r.enter (.word (c :: name)))
    else if textOf name = "keyframes" then r.stepKeyframesName [] p c
    else r.stepHeader (textOf name) none p c
  | .header name arguments => r.stepHeader name arguments p c
  | .arguments name arguments =>
    match arguments.step c with
    | .inl arguments => .ok (r.enter (.arguments name arguments))
    | .inr groups => .ok (r.enter (.header name (some groups)))
  | .keyframesName name => r.stepKeyframesName name p c
  | .keyframesHeader name =>
    if Text.isBlank c then .ok r
    else if c = '{' then .ok (r.enter (.keyframes name {}))
    else .error ⟨.expectedBlock, p⟩
  | .keyframes name steps =>
    match steps.step p c with
    | .error e => .error e
    | .ok (.inl steps) => .ok (r.enter (.keyframes name steps))
    | .ok (.inr steps) => .ok (r.add (.keyframes ⟨name, steps⟩))

def finishIdle (r : Reader) (p : Position) : Except SourceError (List Item) :=
  if r.enclosing.isEmpty then .ok r.items else .error ⟨.unexpectedEnd, p⟩

/-- The items if the source ends at `p`. Comments and values may be cut short by the end. -/
def finish (r : Reader) (p : Position) : Except SourceError (List Item) :=
  match r.mode with
  | .idle => r.finishIdle p
  | .slash first => .error ⟨.badPropertyName, first⟩
  | .comment comment => (r.add (.comment comment.text)).finishIdle p
  | .declaration declaration =>
    match declaration.finish with
    | some d => (r.add (.declaration d)).finishIdle p
    | none => .error ⟨.unexpectedEnd, p⟩
  | .pseudo _ _ block => .error (block.endFault p)
  | .word name =>
    if textOf name = "keyframes" then .error ⟨.missingKeyframesName, p⟩
    else .error ⟨.unexpectedEnd, p⟩
  | .keyframesName name =>
    if name.isEmpty then .error ⟨.missingKeyframesName, p⟩ else .error ⟨.unexpectedEnd, p⟩
  | .keyframes _ steps => .error (steps.endFault p)
  | .selector .. | .header .. | .arguments .. | .keyframesHeader _ => .error ⟨.unexpectedEnd, p⟩

/-- The state after a text that starts at `p`. -/
def feed (r : Reader) (p : Position) : List Char → Except SourceError Reader
  | [] => .ok r
  | c :: cs =>
    match r.step p c with
    | .error e => .error e
    | .ok r => r.feed (p.advance c) cs

def read (r : Reader) (p : Position) (cs : List Char) : Except SourceError (List Item) :=
  match r.feed p cs with
  | .error e => .error e
  | .ok r => r.finish (p.advanceAll cs)

theorem feed_append (r : Reader) (p : Position) (cs ds : List Char) :
    r.feed p (cs ++ ds) =
      match r.feed p cs with
      | .error e => .error e
      | .ok r => r.feed (p.advanceAll cs) ds := by
  induction cs generalizing r p with
  | nil => rfl
  | cons c cs ih =>
    simp only [List.cons_append, feed]
    cases r.step p c with
    | error e => rfl
    | ok r => simpa using ih r (p.advance c)

end Reader

end GridCss.Source

namespace GridCss

def parse (source : String) : Except SourceError (List Item) :=
  Source.Reader.read {} {} source.toList

end GridCss

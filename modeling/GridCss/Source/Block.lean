import GridCss.Source.Declaration

/-!
# Reading blocks

A declaration block holds declarations up to its closing brace, a keyframes body holds steps.
Semicolons, blanks and comments may stand between them.
-/

namespace GridCss.Source

/-- A comment up to the end of the line or up to its closing mark, with the text read so far, latest
character first. -/
inductive CommentReader where
  | line (text : List Char)
  | block (text : List Char)
  deriving DecidableEq, Repr, Inhabited

namespace CommentReader

def step (r : CommentReader) (c : Char) : CommentReader ⊕ String :=
  match r with
  | .line text => if c = '\n' then .inr (textOf text) else .inl (.line (c :: text))
  | .block text =>
    match c, text with
    | '/', '*' :: text => .inr (textOf text)
    | c, text => .inl (.block (c :: text))

def text : CommentReader → String
  | .line text | .block text => textOf text

/-- The comment that starts with a slash and the given character. -/
def behindSlash? : Char → Option CommentReader
  | '*' => some (.block [])
  | '/' => some (.line [])
  | _ => none

end CommentReader

inductive BlockMode where
  | idle
  -- with the position of the slash, which must start a comment
  | slash (first : Position)
  | comment (comment : CommentReader)
  | declaration (declaration : DeclarationReader)
  deriving Inhabited

structure BlockReader where
  mode : BlockMode := .idle
  declarations : List Declaration := []
  deriving Inhabited

namespace BlockReader

def stepIdle (r : BlockReader) (p : Position) (c : Char) :
    Except SourceError (BlockReader ⊕ List Declaration) :=
  if Text.isBlank c || c = ';' then .ok (.inl { r with mode := .idle })
  else if c = '}' then .ok (.inr r.declarations)
  else if c = '#' then .ok (.inl { r with mode := .comment (.line []) })
  else if c = '/' then .ok (.inl { r with mode := .slash p })
  else
    match DeclarationReader.start p c with
    | .error e => .error e
    | .ok d => .ok (.inl { r with mode := .declaration d })

/-- One character of a declaration block; the second case is the finished block. -/
def step (r : BlockReader) (p : Position) (c : Char) :
    Except SourceError (BlockReader ⊕ List Declaration) :=
  match r.mode with
  | .idle => r.stepIdle p c
  | .slash first =>
    match CommentReader.behindSlash? c with
    | some comment => .ok (.inl { r with mode := .comment comment })
    | none => .error ⟨.badPropertyName, first⟩
  | .comment comment =>
    match comment.step c with
    | .inl comment => .ok (.inl { r with mode := .comment comment })
    | .inr _ => .ok (.inl { r with mode := .idle })
  | .declaration declaration =>
    match declaration.step p c with
    | .error e => .error e
    | .ok (.more declaration) => .ok (.inl { r with mode := .declaration declaration })
    | .ok (.done d) => .ok (.inl { declarations := r.declarations ++ [d] })
    | .ok (.closed d) => .ok (.inr (r.declarations ++ [d]))

/-- The fault if the source ends here. -/
def endFault (r : BlockReader) (p : Position) : SourceError :=
  match r.mode with
  | .slash first => ⟨.badPropertyName, first⟩
  | _ => ⟨.unexpectedEnd, p⟩

end BlockReader

inductive StepsMode where
  | idle
  | slash
  | comment (comment : CommentReader)
  | selector (text : List Char)
  | block (selector : String) (block : BlockReader)
  deriving Inhabited

structure StepsReader where
  mode : StepsMode := .idle
  steps : List KeyframeStep := []
  deriving Inhabited

namespace StepsReader

/-- A selector runs up to an opening brace; blanks in it are dropped. -/
def stepSelector (r : StepsReader) (text : List Char) (c : Char) : StepsReader :=
  if c = '{' then { r with mode := .block (textOf text) {} }
  else if Text.isBlank c then { r with mode := .selector text }
  else { r with mode := .selector (c :: text) }

def step (r : StepsReader) (p : Position) (c : Char) :
    Except SourceError (StepsReader ⊕ List KeyframeStep) :=
  match r.mode with
  | .idle =>
    if Text.isBlank c || c = ';' then .ok (.inl r)
    else if c = '}' then .ok (.inr r.steps)
    else if c = '#' then .ok (.inl { r with mode := .comment (.line []) })
    else if c = '/' then .ok (.inl { r with mode := .slash })
    else .ok (.inl (r.stepSelector [] c))
  | .slash =>
    match CommentReader.behindSlash? c with
    | some comment => .ok (.inl { r with mode := .comment comment })
    -- Here a slash that starts no comment belongs to a selector.
    | none => .ok (.inl (r.stepSelector ['/'] c))
  | .comment comment =>
    match comment.step c with
    | .inl comment => .ok (.inl { r with mode := .comment comment })
    | .inr _ => .ok (.inl { r with mode := .idle })
  | .selector text => .ok (.inl (r.stepSelector text c))
  | .block selector block =>
    match block.step p c with
    | .error e => .error e
    | .ok (.inl block) => .ok (.inl { r with mode := .block selector block })
    | .ok (.inr declarations) => .ok (.inl { steps := r.steps ++ [⟨selector, declarations⟩] })

def endFault (r : StepsReader) (p : Position) : SourceError :=
  match r.mode with
  | .block _ block => block.endFault p
  | _ => ⟨.unexpectedEnd, p⟩

end StepsReader
end GridCss.Source

import GridCss.Source.Arguments
import GridCss.Source.Fault

/-!
# Reading declarations

A declaration is a name, a colon and a value. The value runs up to a semicolon, which belongs to it,
or up to the brace that closes the enclosing block, which does not. Runs of blanks in a value count
as one space, and a second colon is a fault.
-/

namespace GridCss.Source

/-- One character into something: more of it, its end, or its end at a brace that also closes the
enclosing block. -/
inductive Step (σ α : Type) where
  | more (state : σ)
  | done (result : α)
  | closed (result : α)

def trimFirst : List Node → List Node
  | .text s :: nodes => .text (Text.trimStart s) :: nodes
  | nodes => nodes

def trimLast : List Node → List Node
  | [] => []
  | [.text s] => [.text (Text.trimEnd s)]
  | node :: nodes => node :: trimLast nodes

def Node.isEmptyText : Node → Bool
  | .text s => s.isEmpty
  | .call .. => false

inductive ValueMode where
  | plain
  -- behind `@`, with the name characters since
  | sign (name : List Char)
  | call (name : String) (arguments : ArgumentReader)
  deriving Inhabited

/-- The state of reading a value: the nodes read and the text since, latest character first. -/
structure ValueReader where
  mode : ValueMode := .plain
  nodes : List Node := []
  text : List Char := []
  deriving Inhabited

namespace ValueReader

def flush (r : ValueReader) : List Node :=
  if r.text.isEmpty then r.nodes else r.nodes ++ [.text (textOf r.text)]

/-- The whole value, without blanks at its ends. -/
def value (r : ValueReader) : List Node :=
  (trimLast (trimFirst r.flush)).filter (! Node.isEmptyText ·)

/-- An at sign and a name that start no call are text. -/
def abandon (r : ValueReader) (name : List Char) : ValueReader :=
  { r with mode := .plain, text := name ++ '@' :: r.text }

def pushBlank (r : ValueReader) : ValueReader :=
  match r.text with
  | ' ' :: _ => r
  | text => { r with text := ' ' :: text }

def stepPlain (r : ValueReader) (p : Position) (c : Char) :
    Except SourceError (Step ValueReader (List Node)) :=
  if c = '}' then .ok (.closed r.value)
  else if c = ';' then .ok (.done r.value)
  else if c = '@' then .ok (.more { r with mode := .sign [] })
  else if c = ':' then .error ⟨.unexpectedColon, p⟩
  else if Text.isBlank c then .ok (.more r.pushBlank)
  else .ok (.more { r with text := c :: r.text })

def step (r : ValueReader) (p : Position) (c : Char) :
    Except SourceError (Step ValueReader (List Node)) :=
  match r.mode with
  | .plain => r.stepPlain p c
  | .sign name =>
    if Text.isNameChar c then .ok (.more { r with mode := .sign (c :: name) })
    else if c = '(' && !name.isEmpty then
      .ok (.more { mode := .call (textOf name) {}, nodes := r.flush })
    else (r.abandon name).stepPlain p c
  | .call name arguments =>
    match arguments.step c with
    | .inl arguments => .ok (.more { r with mode := .call name arguments })
    | .inr groups => .ok (.more { nodes := r.nodes ++ [.call name groups] })

/-- The value if the source ends here, which it must not do in an argument list. -/
def finish (r : ValueReader) : Option (List Node) :=
  match r.mode with
  | .plain => some r.value
  | .sign name => some (r.abandon name).value
  | .call .. => none

end ValueReader

inductive DeclarationReader where
  | property (name : List Char)
  -- in the blanks behind the property name, with the position of the first
  | gap (name : List Char) (since : Position)
  | value (name : String) (reader : ValueReader)
  deriving Inhabited

namespace DeclarationReader

def start (p : Position) (c : Char) : Except SourceError DeclarationReader :=
  if Text.isNameChar c then .ok (.property [c]) else .error ⟨.badPropertyName, p⟩

/-- One more character. A property name in two words is reported where the blanks between them
start. -/
def step (r : DeclarationReader) (p : Position) (c : Char) :
    Except SourceError (Step DeclarationReader Declaration) :=
  match r with
  | .property name =>
    if c = ':' then .ok (.more (.value (textOf name) {}))
    else if Text.isBlank c then .ok (.more (.gap name p))
    else if Text.isNameChar c then .ok (.more (.property (c :: name)))
    else .error ⟨.badPropertyName, p⟩
  | .gap name since =>
    if c = ':' then .ok (.more (.value (textOf name) {}))
    else if Text.isBlank c then .ok (.more (.gap name since))
    else if Text.isNameChar c then .error ⟨.badPropertyName, since⟩
    else .error ⟨.badPropertyName, p⟩
  | .value name reader =>
    match reader.step p c with
    | .error e => .error e
    | .ok (.more reader) => .ok (.more (.value name reader))
    | .ok (.done nodes) => .ok (.done ⟨name, nodes⟩)
    | .ok (.closed nodes) => .ok (.closed ⟨name, nodes⟩)

def finish : DeclarationReader → Option Declaration
  | .property _ | .gap .. => none
  | .value name reader => reader.finish.map fun nodes => ⟨name, nodes⟩

end DeclarationReader
end GridCss.Source

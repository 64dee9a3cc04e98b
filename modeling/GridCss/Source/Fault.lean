import GridCss.Source.Cursor

/-!
# Faults in a source

A source is refused for one of five causes, reported with the position of the offending character.
-/

namespace GridCss

inductive Fault where
  | badPropertyName
  | unexpectedColon
  | missingKeyframesName
  | expectedBlock
  | unexpectedEnd
  deriving DecidableEq, Repr

def Fault.text : Fault → String
  | badPropertyName => "Syntax error: Bad property name."
  | unexpectedColon => "Syntax error: unexpected ':' in value."
  | missingKeyframesName => "missing keyframes name"
  | expectedBlock => "expected '\x7b'"
  | unexpectedEnd => "unexpected end of input"

structure SourceError where
  fault : Fault
  position : Position
  deriving DecidableEq, Repr

def SourceError.message (e : SourceError) : String :=
  s!"(at line {e.position.line}, column {e.position.column}) " ++ e.fault.text

end GridCss

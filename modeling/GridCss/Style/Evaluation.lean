import GridCss.Function.Registry
import GridCss.Source.Tree

/-!
# Evaluating values

Calls are evaluated for one cell, arguments from left to right before the call itself. A call to an
unknown function has no value, and its arguments are not evaluated.
-/

namespace GridCss

/-- The text of a value, or nothing. -/
def displayOr : Option Value → String
  | some v => v.display
  | none => ""

/-- The value of an argument from those of its pieces. A single piece keeps its type, several are
joined as text. -/
def joinPieces : List (Option Value) → Value
  | [] => .text ""
  | [v] => v.getD (.text "")
  | vs => .text (String.join (vs.map displayOr))

mutual

def Argument.eval (r : Registry) (cell : Cell) : Argument → StateM Scope (Option Value)
  | .text s => return some (.text s)
  | .number x => return some (.number x)
  | .call name arguments =>
    match r.function? name with
    | none => return none
    | some f => do f cell (← Argument.evalGroups r cell arguments)

def Argument.evalPieces (r : Registry) (cell : Cell) :
    List Argument → StateM Scope (List (Option Value))
  | [] => return []
  | a :: rest => do
    let v ← a.eval r cell
    let vs ← Argument.evalPieces r cell rest
    return v :: vs

def Argument.evalGroups (r : Registry) (cell : Cell) :
    List (List Argument) → StateM Scope (List Value)
  | [] => return []
  | group :: rest => do
    let pieces ← Argument.evalPieces r cell group
    let vs ← Argument.evalGroups r cell rest
    return joinPieces pieces :: vs

end

def Node.eval (r : Registry) (cell : Cell) : Node → StateM Scope String
  | .text s => return s
  | .call name arguments => do
    return displayOr (← (Argument.call name arguments).eval r cell)

/-- The text of a declared value. -/
def Node.evalAll (r : Registry) (cell : Cell) : List Node → StateM Scope String
  | [] => return ""
  | node :: rest => do
    let s ← node.eval r cell
    let t ← Node.evalAll r cell rest
    return s ++ t

end GridCss

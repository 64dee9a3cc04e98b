import GridCss.Style.Evaluation
import GridCss.Style.Rule
import GridCss.Style.RuleSheet

/-!
# The log of a pass over the cells

The items of a source are compiled once for every cell. What that gives is logged in order: rules of
the cell, rules of the host, and keyframes that the cell reaches. Style sheets are read off the log.
-/

namespace GridCss

/-- What stays the same during a pass: the functions, whether animations are renamed for each cell,
and the names of all declared keyframes. -/
structure Context where
  registry : Registry
  renames : Bool
  declared : List String

/-- What rules apply to: the cell that compiled them, or a part of it, or the host. -/
inductive Target where
  | cell (suffix : String)
  | host (selector : String)
  deriving DecidableEq, Repr

inductive Entry where
  | rules (cell : Cell) (target : Target) (rules : List Rule)
  | keyframes (cell : Cell) (keyframes : Keyframes)

/-- What a pass changes: the scope of the functions, and the host blocks that have been compiled. -/
structure Pass where
  scope : Scope
  hosts : List Nat := []

namespace Selector

/-- Colons and `doodle` at the start of a selector stand for the host. -/
def resolve (selector : String) : String :=
  match selector.toList with
  | ':' :: rest =>
    match "doodle".toList.isPrefixOf? (rest.dropWhile (· == ':')) with
    | some rest => ":host" ++ String.ofList rest
    | none => selector
  | _ => selector

def isHost (selector : String) : Bool := Text.startsWith selector ":host"

def ofCell (cellSelector : String) (index : Nat) (suffix : String) : String :=
  cellSelector ++ s!":nth-of-type({index})" ++ suffix

end Selector

namespace Target

/-- Pseudo blocks for the host apply to it, all others to a part of the cell. -/
def ofSelector (selector : String) : Target :=
  let selector := Selector.resolve selector
  if Selector.isHost selector then .host selector else .cell selector

def selector (cellSelector : String) (cell : Cell) : Target → String
  | .cell suffix => Selector.ofCell cellSelector cell.index suffix
  | .host selector => selector

end Target

def Declaration.compile (k : Context) (cell : Cell) (d : Declaration) : StateM Scope Rule := do
  let value ← Node.evalAll k.registry cell d.value
  let rename := if k.renames then some cell.index else none
  return ⟨d.property, Rule.write d.property value rename k.declared⟩

def Declaration.compileAll (k : Context) (cell : Cell) :
    List Declaration → StateM Scope (List Rule)
  | [] => return []
  | d :: rest => do
    let rule ← d.compile k cell
    let rules ← Declaration.compileAll k cell rest
    return rule :: rules

namespace Pass

def inScope {α : Type} (m : StateM Scope α) : StateM Pass α := fun p =>
  let (a, scope) := m p.scope
  (a, { p with scope := scope })

/-- Whether a host block comes for the first time; it is noted as compiled. -/
def enterHost (id : Nat) : StateM Pass Bool := fun p =>
  if p.hosts.contains id then (false, p) else (true, { p with hosts := id :: p.hosts })

end Pass

/-- Host blocks are compiled for the first cell that reaches them only. -/
def PseudoBlock.compile (k : Context) (cell : Cell) (b : PseudoBlock) :
    StateM Pass (List Entry) := do
  match Target.ofSelector b.selector with
  | .host selector =>
    if ← Pass.enterHost b.id then
      let rules ← Pass.inScope (Declaration.compileAll k cell b.declarations)
      return [.rules cell (.host selector) rules]
    else return []
  | target =>
    let rules ← Pass.inScope (Declaration.compileAll k cell b.declarations)
    return [.rules cell target rules]

/-- Whether a condition holds for a cell. An unknown one does not, and its arguments are not
evaluated. -/
def holds (k : Context) (cell : Cell) (name : String) (arguments : List (List Argument)) :
    StateM Scope Bool :=
  match k.registry.predicate? name with
  | none => return false
  | some f => do
    let v ← f cell (← Argument.evalGroups k.registry cell arguments)
    return v.any Value.truthy

mutual

def Item.compile (k : Context) (cell : Cell) : Item → StateM Pass (List Entry)
  | .declaration d => do
    let rule ← Pass.inScope (d.compile k cell)
    return [.rules cell (.cell "") [rule]]
  | .pseudo b => b.compile k cell
  | .conditional name arguments items => do
    if ← Pass.inScope (holds k cell name arguments) then Item.compileAll k cell items
    else return []
  | .keyframes block => return [.keyframes cell block]
  | .comment _ => return []

def Item.compileAll (k : Context) (cell : Cell) : List Item → StateM Pass (List Entry)
  | [] => return []
  | item :: rest => do
    let entries ← item.compile k cell
    let more ← Item.compileAll k cell rest
    return entries ++ more

end

def Item.compileCells (k : Context) (items : List Item) : List Cell → StateM Pass (List Entry)
  | [] => return []
  | cell :: rest => do
    let entries ← Item.compileAll k cell items
    let more ← Item.compileCells k items rest
    return entries ++ more

namespace Entry

def file (cellSelector : String) (s : RuleSheet) : Entry → RuleSheet
  | .rules cell target rs => s.extend (target.selector cellSelector cell) (rs.map Rule.text)
  | .keyframes .. => s

/-- The sheet of all rules in a log. -/
def sheet (cellSelector : String) (log : List Entry) : RuleSheet :=
  log.foldl (file cellSelector) {}

def allRules : Entry → List Rule
  | .rules _ _ rs => rs
  | .keyframes .. => []

/-- The cell of an entry that animates something. -/
def animated? : Entry → Option Cell
  | .rules cell _ rs => if rs.any (Property.isAnimation ·.property) then some cell else none
  | .keyframes .. => none

/-- The cells that animate something, each once. -/
def animatedCells (log : List Entry) : List Cell := (log.filterMap animated?).eraseDups

def keyframes? : Entry → Option (Cell × Keyframes)
  | .rules .. => none
  | .keyframes cell block => some (cell, block)

/-- The first keyframes of every name, with the cell that reached them first. -/
def firstKeyframes (log : List Entry) : List (Cell × Keyframes) :=
  (log.filterMap keyframes?).eraseDupsBy fun x y => x.2.name == y.2.name

end Entry
end GridCss

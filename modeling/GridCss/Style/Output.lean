import GridCss.Style.Log

/-!
# Style sheets of a compilation

After the pass over the cells the keyframes are compiled: every block once for the cell that first
reached it and, if there is more than one cell, once more for every cell that animates something.
-/

namespace GridCss

/-- A keyframes block with its rules. -/
structure KeyframesRules where
  name : String
  steps : List (String × List Rule)
  deriving DecidableEq, Repr

namespace KeyframesRules

def text (k : KeyframesRules) : String :=
  let steps := k.steps.map fun (selector, rules) => RuleGroup.text ⟨selector, rules.map Rule.text⟩
  "@keyframes " ++ k.name ++ " \x7b " ++ " ".intercalate steps ++ " \x7d"

def allRules (k : KeyframesRules) : List Rule := k.steps.flatMap Prod.snd

end KeyframesRules

def KeyframeStep.compileAll (k : Context) (cell : Cell) :
    List KeyframeStep → StateM Scope (List (String × List Rule))
  | [] => return []
  | step :: rest => do
    let rules ← Declaration.compileAll k cell step.declarations
    let more ← KeyframeStep.compileAll k cell rest
    return (step.selector, rules) :: more

namespace Keyframes

/-- The block under a name of its own, compiled for one cell. -/
def compileAs (k : Context) (name : String) (cell : Cell) (block : Keyframes) :
    StateM Scope KeyframesRules := do
  return ⟨name, ← KeyframeStep.compileAll k cell block.steps⟩

/-- The copies of a block for the given cells. -/
def compileCopies (k : Context) (block : Keyframes) :
    List Cell → StateM Scope (List KeyframesRules)
  | [] => return []
  | cell :: rest => do
    let copy ← block.compileAs k (Rule.cellName block.name cell.index) cell
    let more ← compileCopies k block rest
    return copy :: more

/-- All blocks, each followed by its copies. -/
def compileAll (k : Context) (animated : List Cell) :
    List (Cell × Keyframes) → StateM Scope (List KeyframesRules)
  | [] => return []
  | (cell, block) :: rest => do
    let base ← block.compileAs k block.name cell
    let copies ← block.compileCopies k (if k.renames then animated else [])
    let more ← compileAll k animated rest
    return base :: copies ++ more

end Keyframes

/-- What compiling a source for a grid gives, before it is written out. -/
structure Compilation where
  log : List Entry
  keyframes : List KeyframesRules

/-- Which features the compiled styles use. -/
structure Flags where
  transition : Bool
  animation : Bool
  deriving DecidableEq, Repr

/-- Styles that change over time are applied later than the others. -/
def Flags.defers (f : Flags) : Bool := f.transition || f.animation

structure Stylesheets where
  host : String
  cells : String
  keyframes : String
  deriving DecidableEq, Repr

/-- All sheets as one: keyframes, host and cells, as far as they are not empty. -/
def Stylesheets.css (s : Stylesheets) : String :=
  "\n".intercalate ([s.keyframes, s.host, s.cells].filter (! ·.isEmpty))

structure Output where
  flags : Flags
  stylesheets : Stylesheets
  deriving DecidableEq, Repr

namespace Compilation

def context (registry : Registry) (grid : Grid) (items : List Item) : Context :=
  { registry := registry, renames := 1 < grid.count, declared := Item.keyframesNames items }

/-- Compiles items for all cells of a grid, then the keyframes. -/
def run (registry : Registry) (grid : Grid) (items : List Item) : StateM Scope Compilation :=
  fun scope =>
    let k := context registry grid items
    let (log, pass) := Item.compileCells k items grid.cells { scope := scope }
    let (keyframes, scope) :=
      Keyframes.compileAll k (Entry.animatedCells log) (Entry.firstKeyframes log) pass.scope
    (⟨log, keyframes⟩, scope)

/-- All rules that were compiled, of cells, host and keyframes. -/
def allRules (c : Compilation) : List Rule :=
  c.log.flatMap Entry.allRules ++ c.keyframes.flatMap KeyframesRules.allRules

def flags (c : Compilation) : Flags :=
  { transition := c.allRules.any (Property.isTransition ·.property)
    animation := c.allRules.any (Property.isAnimation ·.property) }

def output (c : Compilation) (cellSelector : String) : Output :=
  let sheet := Entry.sheet cellSelector c.log
  { flags := c.flags
    stylesheets :=
      { host := sheet.render Selector.isHost
        cells := sheet.render (! Selector.isHost ·)
        keyframes := "\n".intercalate (c.keyframes.map KeyframesRules.text) } }

end Compilation
end GridCss

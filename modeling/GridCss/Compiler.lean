import GridCss.Function.Builtin
import GridCss.Source.Reader
import GridCss.Style.Output

/-!
# Compilers

A compiler has a seed, the selector of a cell and a registry of functions, and keeps its memo from
one source to the next. Every compilation starts with the random words of the seed.
-/

namespace GridCss

structure Compiler where
  seed : UInt64 := 0
  cellSelector : String := ".cell"
  registry : Registry := Registry.builtin
  memo : Memo := {}

namespace Compiler

/-- Compiles items. -/
def generate (c : Compiler) (items : List Item) (grid : Grid) : Output × Compiler :=
  let (result, scope) := Compilation.run c.registry grid items ⟨c.memo, Words.ofSeed c.seed⟩
  (result.output c.cellSelector, { c with memo := scope.memo })

/-- Reads and compiles a source. One that cannot be read leaves the compiler as it is. -/
def compile (c : Compiler) (source : String) (grid : Grid) :
    Except SourceError Output × Compiler :=
  match parse source with
  | .error e => (.error e, c)
  | .ok items =>
    let (output, c) := c.generate items grid
    (.ok output, c)

def clearMemo (c : Compiler) : Compiler := { c with memo := c.memo.clear }

end Compiler
end GridCss

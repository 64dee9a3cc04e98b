import GridCss.Style.Output

/-!
# Documents

The markup of a compiled grid: base styles, keyframes, container, cells. Cell styles that change
over time are left out at first and applied after a delay.
-/

namespace GridCss

structure Document where
  grid : Grid
  output : Output

namespace Document

/-- The delay of deferred styles, in milliseconds. -/
def delay : Nat := 50

def baseStyle : String :=
  ":host \x7b display: block; visibility: visible; width: 1em; height: 1em; \x7d\n" ++
    ".container \x7b position: relative; width: 100%; height: 100%; display: grid; \x7d\n" ++
    ".cell \x7b position: relative; line-height: 1; box-sizing: border-box; display: flex; " ++
    "justify-content: center; align-items: center; \x7d"

/-- The extents of the grid, then the styles of the host. -/
def containerStyle (d : Document) : String :=
  let template := ".container \x7b grid-template-rows: repeat(" ++ toString d.grid.rows ++
    ", 1fr); grid-template-columns: repeat(" ++ toString d.grid.cols ++ ", 1fr); \x7d"
  let host := d.output.stylesheets.host
  if host.isEmpty then template else template ++ "\n" ++ host

def initialCells (d : Document) : String :=
  if d.output.flags.defers then "" else d.output.stylesheets.cells

def deferredCells (d : Document) : Option String :=
  if d.output.flags.defers then some d.output.stylesheets.cells else none

def cellsHtml (d : Document) : String :=
  String.join (List.replicate d.grid.count "<div class=\"cell\"></div>")

def styleElement (attributes content : String) : String :=
  "<style" ++ attributes ++ ">\n" ++ content ++ "\n</style>"

def html (d : Document) : String :=
  "\n".intercalate
    [styleElement "" baseStyle,
      styleElement " class=\"style-keyframes\"" d.output.stylesheets.keyframes,
      styleElement " class=\"style-container\"" d.containerStyle,
      styleElement " class=\"style-cells\"" d.initialCells,
      "<div class=\"container\">" ++ d.cellsHtml ++ "</div>"]

end Document
end GridCss

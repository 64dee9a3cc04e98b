import GridCss.Proofs.KeyframesBodies
import GridCss.Proofs.KeyframesCopies
import GridCss.Proofs.Memoization

/-!
# Unknown names

A call of an unknown function has no value, and a conditional with an unknown predicate leaves
nothing. Neither evaluates its arguments, so that whatever stands in them, and in the conditional,
draws no words and recalls nothing: sources that differ in it alone compile to the same styles and
leave the same memo.
-/

namespace GridCss

variable {k : Context} {cell : Cell}

mutual

/-- A piece of an argument in which calls of unknown functions, nested ones included, have no
arguments. -/
def Argument.withoutUnknown (r : Registry) : Argument → Argument
  | .text s => .text s
  | .number x => .number x
  | .call name arguments =>
    .call name
      (if (r.function? name).isSome then Argument.withoutUnknownGroups r arguments else [])

def Argument.withoutUnknownPieces (r : Registry) : List Argument → List Argument
  | [] => []
  | a :: rest => a.withoutUnknown r :: Argument.withoutUnknownPieces r rest

def Argument.withoutUnknownGroups (r : Registry) : List (List Argument) → List (List Argument)
  | [] => []
  | group :: rest =>
    Argument.withoutUnknownPieces r group :: Argument.withoutUnknownGroups r rest

end

def Node.withoutUnknown (r : Registry) : Node → Node
  | .text s => .text s
  | .call name arguments =>
    .call name
      (if (r.function? name).isSome then Argument.withoutUnknownGroups r arguments else [])

def Declaration.withoutUnknown (r : Registry) (d : Declaration) : Declaration :=
  { d with value := d.value.map (Node.withoutUnknown r) }

def PseudoBlock.withoutUnknown (r : Registry) (b : PseudoBlock) : PseudoBlock :=
  { b with declarations := b.declarations.map (Declaration.withoutUnknown r) }

def KeyframeStep.withoutUnknown (r : Registry) (step : KeyframeStep) : KeyframeStep :=
  { step with declarations := step.declarations.map (Declaration.withoutUnknown r) }

def Keyframes.withoutUnknown (r : Registry) (block : Keyframes) : Keyframes :=
  { block with steps := block.steps.map (KeyframeStep.withoutUnknown r) }

mutual

/-- An item in which calls of unknown functions have no arguments, and conditionals with unknown
predicates neither arguments nor items. -/
def Item.withoutUnknown (r : Registry) : Item → Item
  | .declaration d => .declaration (d.withoutUnknown r)
  | .pseudo b => .pseudo (b.withoutUnknown r)
  | .conditional name arguments items =>
    if (r.predicate? name).isSome then
      .conditional name (Argument.withoutUnknownGroups r arguments) (Item.withoutUnknownAll r items)
    else .conditional name [] []
  | .keyframes block => .keyframes (block.withoutUnknown r)
  | .comment text => .comment text

def Item.withoutUnknownAll (r : Registry) : List Item → List Item
  | [] => []
  | item :: rest => item.withoutUnknown r :: Item.withoutUnknownAll r rest

end

mutual

theorem Argument.eval_withoutUnknown (r : Registry) (a : Argument) :
    (a.withoutUnknown r).eval r cell = a.eval r cell := by
  cases a with
  | text s => simp only [withoutUnknown]
  | number x => simp only [withoutUnknown]
  | call name arguments =>
    simp only [withoutUnknown, eval]
    cases r.function? name with
    | none => rfl
    | some f => simp only [Option.isSome_some, if_true, evalGroups_withoutUnknown r arguments]

theorem Argument.evalPieces_withoutUnknown (r : Registry) (pieces : List Argument) :
    evalPieces r cell (withoutUnknownPieces r pieces) = evalPieces r cell pieces := by
  cases pieces with
  | nil => simp only [withoutUnknownPieces]
  | cons a rest =>
    simp only [withoutUnknownPieces, evalPieces, eval_withoutUnknown r a,
      evalPieces_withoutUnknown r rest]

theorem Argument.evalGroups_withoutUnknown (r : Registry) (groups : List (List Argument)) :
    evalGroups r cell (withoutUnknownGroups r groups) = evalGroups r cell groups := by
  cases groups with
  | nil => simp only [withoutUnknownGroups]
  | cons group rest =>
    simp only [withoutUnknownGroups, evalGroups, evalPieces_withoutUnknown r group,
      evalGroups_withoutUnknown r rest]

end

theorem Node.eval_withoutUnknown (r : Registry) (node : Node) :
    (node.withoutUnknown r).eval r cell = node.eval r cell := by
  cases node with
  | text s => rfl
  | call name arguments =>
    have hcall := @Argument.eval_withoutUnknown cell r (.call name arguments)
    rw [Argument.withoutUnknown] at hcall
    simp only [withoutUnknown, eval, hcall]

theorem Node.evalAll_withoutUnknown (r : Registry) (nodes : List Node) :
    evalAll r cell (nodes.map (withoutUnknown r)) = evalAll r cell nodes := by
  induction nodes with
  | nil => rfl
  | cons node rest ih => simp only [List.map_cons, evalAll, eval_withoutUnknown, ih]

theorem Declaration.compile_withoutUnknown (d : Declaration) :
    (d.withoutUnknown k.registry).compile k cell = d.compile k cell := by
  simp only [compile, withoutUnknown, Node.evalAll_withoutUnknown]

theorem Declaration.compileAll_withoutUnknown (ds : List Declaration) :
    compileAll k cell (ds.map (withoutUnknown k.registry)) = compileAll k cell ds := by
  induction ds with
  | nil => rfl
  | cons d rest ih => simp only [List.map_cons, compileAll, compile_withoutUnknown, ih]

theorem KeyframeStep.compileAll_withoutUnknown (steps : List KeyframeStep) :
    compileAll k cell (steps.map (withoutUnknown k.registry)) = compileAll k cell steps := by
  induction steps with
  | nil => rfl
  | cons step rest ih =>
    simp only [List.map_cons, compileAll, ih, withoutUnknown, Declaration.compileAll_withoutUnknown]

theorem KeyframesCopy.compile_withoutUnknown (c : KeyframesCopy) :
    compile k { c with block := c.block.withoutUnknown k.registry } = c.compile k := by
  simp only [compile_eq, Keyframes.compileAs, Keyframes.withoutUnknown,
    KeyframeStep.compileAll_withoutUnknown]

theorem PseudoBlock.compile_withoutUnknown (b : PseudoBlock) :
    (b.withoutUnknown k.registry).compile k cell = b.compile k cell := by
  simp only [compile, withoutUnknown, Declaration.compileAll_withoutUnknown]

theorem holds_withoutUnknown (name : String) (arguments : List (List Argument)) :
    holds k cell name (Argument.withoutUnknownGroups k.registry arguments) =
      holds k cell name arguments := by
  simp only [holds, Argument.evalGroups_withoutUnknown]

theorem Item.compile_conditional_of_unknown {name : String}
    (h : k.registry.predicate? name = none) (arguments : List (List Argument))
    (items : List Item) (p : Pass) :
    (Item.conditional name arguments items).compile k cell p = ([], p) := by
  have hholds : holds k cell name arguments = pure false := by simp only [holds, h]
  rw [compile_conditional, hholds]
  rfl

mutual

theorem Item.compile_withoutUnknown (item : Item) (p : Pass) :
    (item.withoutUnknown k.registry).compile k cell p =
      ((item.compile k cell p).1.map (Entry.mapKeyframes (Keyframes.withoutUnknown k.registry)),
        (item.compile k cell p).2) := by
  cases item with
  | declaration d =>
    simp only [withoutUnknown, compile_declaration, Declaration.compile_withoutUnknown,
      List.map_cons, List.map_nil, Entry.mapKeyframes]
  | pseudo b =>
    rw [withoutUnknown, compile_pseudo, compile_pseudo, PseudoBlock.compile_withoutUnknown,
      PseudoBlock.map_mapKeyframes]
    rfl
  | conditional name arguments items =>
    cases hname : k.registry.predicate? name with
    | none =>
      simp only [withoutUnknown, hname, Option.isSome_none, Bool.false_eq_true, if_false,
        compile_conditional_of_unknown hname, List.map_nil]
    | some f =>
      simp only [withoutUnknown, hname, Option.isSome_some, if_true, compile_conditional,
        holds_withoutUnknown]
      split
      · exact compileAll_withoutUnknown items _
      · rfl
  | keyframes block =>
    simp only [withoutUnknown, compile_keyframes, List.map_cons, List.map_nil, Entry.mapKeyframes]
  | comment text => simp only [withoutUnknown, compile_comment, List.map_nil]

theorem Item.compileAll_withoutUnknown (items : List Item) (p : Pass) :
    compileAll k cell (withoutUnknownAll k.registry items) p =
      ((compileAll k cell items p).1.map
          (Entry.mapKeyframes (Keyframes.withoutUnknown k.registry)),
        (compileAll k cell items p).2) := by
  cases items with
  | nil => simp only [withoutUnknownAll, compileAll_nil, List.map_nil]
  | cons item rest =>
    simp only [withoutUnknownAll, compileAll_cons, compile_withoutUnknown item,
      compileAll_withoutUnknown rest, List.map_append]

end

/-- A pass goes the same way without what is not evaluated. It leaves the same log, apart from what
is not evaluated in keyframes. -/
theorem Item.compileCells_withoutUnknown (items : List Item) (cells : List Cell) (p : Pass) :
    compileCells k (withoutUnknownAll k.registry items) cells p =
      ((compileCells k items cells p).1.map
          (Entry.mapKeyframes (Keyframes.withoutUnknown k.registry)),
        (compileCells k items cells p).2) := by
  induction cells generalizing p with
  | nil => rfl
  | cons cell rest ih =>
    simp only [compileCells_cons, compileAll_withoutUnknown, ih, List.map_append]

namespace Entry

variable (f : Keyframes → Keyframes) (log : List Entry)

theorem animatedCells_mapKeyframes :
    animatedCells (log.map (mapKeyframes f)) = animatedCells log := by
  have hanimated : animated? ∘ mapKeyframes f = animated? := by
    funext e
    cases e <;> rfl
  rw [animatedCells, List.filterMap_map, hanimated, animatedCells]

theorem allRules_mapKeyframes :
    (log.map (mapKeyframes f)).flatMap allRules = log.flatMap allRules := by
  have hrules : ∀ e, allRules (mapKeyframes f e) = allRules e := by
    intro e
    cases e <;> rfl
  simp only [List.flatMap_map, hrules]

/-- Keyframes that keep their names are reached first where they were before. -/
theorem firstKeyframes_mapKeyframes (hf : ∀ block, (f block).name = block.name) :
    firstKeyframes (log.map (mapKeyframes f)) =
      (firstKeyframes log).map fun x => (x.1, f x.2) := by
  have hkeyframes : keyframes? ∘ mapKeyframes f =
      fun e => (keyframes? e).map fun x => (x.1, f x.2) := by
    funext e
    cases e <;> rfl
  rw [firstKeyframes, List.filterMap_map, hkeyframes, ← List.map_filterMap, firstKeyframes]
  refine eraseDupsBy_map ?_ _
  intro x y
  simp only [hf]

end Entry

/-- Keyframes and their copies compile to the same without what is not evaluated. -/
theorem Keyframes.compileAll_withoutUnknown (animated : List Cell)
    (blocks : List (Cell × Keyframes)) :
    compileAll k animated (blocks.map fun x => (x.1, x.2.withoutUnknown k.registry)) =
      compileAll k animated blocks := by
  have hcopies : ∀ x : Cell × Keyframes,
      KeyframesCopy.ofBlock k.renames animated (x.1, x.2.withoutUnknown k.registry) =
        (KeyframesCopy.ofBlock k.renames animated x).map fun c =>
          { c with block := c.block.withoutUnknown k.registry } := by
    intro x
    rw [KeyframesCopy.ofBlock, KeyframesCopy.ofBlock, List.map_cons, List.map_map]
    rfl
  rw [KeyframesCopy.compileAll_eq_mapM, KeyframesCopy.compileAll_eq_mapM, List.flatMap_map]
  simp only [hcopies]
  rw [← List.map_flatMap, List.mapM_map]
  simp only [Function.comp_def, KeyframesCopy.compile_withoutUnknown]

/-- Passes over items that differ only in what is not evaluated go the same way. -/
theorem Item.compileCells_eq_of_withoutUnknown {items items' : List Item}
    (h : withoutUnknownAll k.registry items = withoutUnknownAll k.registry items')
    (cells : List Cell) (p : Pass) :
    let known := Entry.mapKeyframes (Keyframes.withoutUnknown k.registry)
    (compileCells k items cells p).1.map known = (compileCells k items' cells p).1.map known ∧
      (compileCells k items cells p).2 = (compileCells k items' cells p).2 := by
  intro known
  have hpass := @compileCells_withoutUnknown k items cells p
  rw [h, compileCells_withoutUnknown items' cells p] at hpass
  obtain ⟨hlog, hscope⟩ := Prod.mk.inj hpass
  exact ⟨hlog.symm, hscope.symm⟩

/-- Logs that differ only in what is not evaluated lead to the same keyframes. -/
theorem Keyframes.compileAll_eq_of_withoutUnknown {log log' : List Entry}
    (h : log.map (Entry.mapKeyframes (withoutUnknown k.registry)) =
      log'.map (Entry.mapKeyframes (withoutUnknown k.registry))) :
    compileAll k (Entry.animatedCells log) (Entry.firstKeyframes log) =
      compileAll k (Entry.animatedCells log') (Entry.firstKeyframes log') := by
  have hknown : ∀ log : List Entry,
      let known := log.map (Entry.mapKeyframes (withoutUnknown k.registry))
      compileAll k (Entry.animatedCells known) (Entry.firstKeyframes known) =
        compileAll k (Entry.animatedCells log) (Entry.firstKeyframes log) := by
    intro log known
    have hfirst := Entry.firstKeyframes_mapKeyframes (withoutUnknown k.registry) log fun _ => rfl
    rw [Entry.animatedCells_mapKeyframes, hfirst, compileAll_withoutUnknown]
  rw [← hknown log, ← hknown log', h]

namespace Compilation

theorem output_congr {c c' : Compilation} {cellSelector : String}
    (hsheet : Entry.sheet cellSelector c.log = Entry.sheet cellSelector c'.log)
    (hrules : c.log.flatMap Entry.allRules = c'.log.flatMap Entry.allRules)
    (hkeyframes : c.keyframes = c'.keyframes) : c.output cellSelector = c'.output cellSelector := by
  simp only [output, flags, allRules, hsheet, hrules, hkeyframes]

/-- Items that differ only in what is not evaluated, and declare the same keyframes, compile to the
same output and leave the same scope. -/
theorem run_eq_of_withoutUnknown {registry : Registry} {items items' : List Item}
    (h : Item.withoutUnknownAll registry items = Item.withoutUnknownAll registry items')
    (hnames : Item.keyframesNames items = Item.keyframesNames items') (grid : Grid)
    (scope : Scope) (cellSelector : String) :
    (run registry grid items scope).1.output cellSelector =
        (run registry grid items' scope).1.output cellSelector ∧
      (run registry grid items scope).2 = (run registry grid items' scope).2 := by
  have hcontext : context registry grid items' = context registry grid items := by
    simp only [context, hnames]
  obtain ⟨hlog, hpass⟩ := @Item.compileCells_eq_of_withoutUnknown (context registry grid items)
    items items' h grid.cells { scope := scope }
  have hkeyframes := Keyframes.compileAll_eq_of_withoutUnknown hlog
  simp only [run_eq, hcontext, hpass, hkeyframes, and_true]
  refine output_congr ?_ ?_ rfl
  · have hsheet := congrArg (Entry.sheet cellSelector) hlog
    rwa [Entry.sheet_mapKeyframes, Entry.sheet_mapKeyframes] at hsheet
  · have hrules := congrArg (List.flatMap Entry.allRules) hlog
    rwa [Entry.allRules_mapKeyframes, Entry.allRules_mapKeyframes] at hrules

end Compilation

namespace Compiler

/-- Unknown names have no effect. Items that differ only in the arguments of calls of unknown
functions, and in the arguments and items of conditionals with unknown predicates, and that declare
the same keyframes, are compiled to the same output and leave the compiler with the same memo. -/
theorem generate_eq_of_withoutUnknown (c : Compiler) {items items' : List Item}
    (h : Item.withoutUnknownAll c.registry items = Item.withoutUnknownAll c.registry items')
    (hnames : Item.keyframesNames items = Item.keyframesNames items') (grid : Grid) :
    c.generate items grid = c.generate items' grid := by
  obtain ⟨houtput, hscope⟩ := Compilation.run_eq_of_withoutUnknown h hnames grid
    ⟨c.memo, Words.ofSeed c.seed⟩ c.cellSelector
  simp only [generate_eq, houtput, hscope]

/-- Calls that would draw and recall, in an unknown function, deep in an argument of a known one, in
keyframes and in an unknown conditional, against none. -/
theorem generate_eq_of_withoutUnknown_rand :
    let draw : Argument := .call "rand" [[.text "1px"], [.text "9px"]]
    let items (arguments : List (List Argument)) (nested : List Item) : List Item :=
      [.declaration ⟨"width",
          [.call "unknown" arguments, .call "rand" [[.text "1px"], [.text "9px"]]]⟩,
        .declaration ⟨"color",
          [.call "pick" [[.text "a", .call "max" [[.call "unknown" arguments]]], [.text "b"]]]⟩,
        .pseudo ⟨0, ":doodle", [⟨"animation", [.text "spin", .call "unknown" arguments]⟩]⟩,
        .keyframes ⟨"spin", [⟨"to", [⟨"top", [.call "unknown" arguments, .call "random" []]⟩]⟩]⟩,
        .conditional "unknown" arguments nested]
    let many := items [[draw], [.text "x", draw]]
      [.declaration ⟨"left", [.call "random" []]⟩, .keyframes ⟨"spin", []⟩]
    let none := items [] []
    let c : Compiler := { seed := 7 }
    Item.withoutUnknownAll c.registry many = Item.withoutUnknownAll c.registry none ∧
      Item.keyframesNames many = Item.keyframesNames none ∧
      c.generate many (Grid.ofExtents 2 2) = c.generate none (Grid.ofExtents 2 2) := by
  intro draw items many none c
  have hitems : Item.withoutUnknownAll c.registry many =
      Item.withoutUnknownAll c.registry none := rfl
  have hnames : Item.keyframesNames many = Item.keyframesNames none := by
    simp [many, none, items, Item.keyframesNames, Item.allKeyframesNames, List.eraseDups_cons]
  exact ⟨hitems, hnames, c.generate_eq_of_withoutUnknown hitems hnames _⟩

end Compiler

end GridCss

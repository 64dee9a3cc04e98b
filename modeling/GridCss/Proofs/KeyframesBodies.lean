import GridCss.Function.Builtin
import GridCss.Proofs.Visits

/-!
# The bodies of keyframes

While the cells are compiled, keyframes are noted with their steps but no step is looked into: that
comes after the last cell. Items that differ in the steps of their keyframes alone therefore draw
and recall the same for every cell and leave the same log, apart from these steps, and the styles of
cells and host are the same.
-/

namespace GridCss

def Keyframes.withoutSteps (block : Keyframes) : Keyframes := { block with steps := [] }

mutual

/-- An item in which all keyframes, nested ones included, have no steps. -/
def Item.withoutSteps : Item → Item
  | .declaration d => .declaration d
  | .pseudo b => .pseudo b
  | .conditional name arguments items => .conditional name arguments (Item.withoutStepsAll items)
  | .keyframes block => .keyframes block.withoutSteps
  | .comment text => .comment text

def Item.withoutStepsAll : List Item → List Item
  | [] => []
  | item :: rest => item.withoutSteps :: Item.withoutStepsAll rest

end

def Entry.withoutSteps : Entry → Entry
  | .rules cell target rs => .rules cell target rs
  | .keyframes cell block => .keyframes cell block.withoutSteps

/-- An entry with another body of the keyframes in it. -/
def Entry.mapKeyframes (f : Keyframes → Keyframes) : Entry → Entry
  | .rules cell target rs => .rules cell target rs
  | .keyframes cell block => .keyframes cell (f block)

theorem Item.allKeyframesNames_withoutSteps (items : List Item) :
    allKeyframesNames (withoutStepsAll items) = allKeyframesNames items := by
  fun_induction allKeyframesNames items with
  | case1 => simp only [withoutStepsAll, allKeyframesNames]
  | case2 rest block ih =>
    simp only [withoutStepsAll, withoutSteps, allKeyframesNames, ih, Keyframes.withoutSteps]
  | case3 rest name arguments items ihItems ihRest =>
    simp only [withoutStepsAll, withoutSteps, allKeyframesNames, ihItems, ihRest]
  | case4 rest d ih => simpa only [withoutStepsAll, withoutSteps, allKeyframesNames] using ih
  | case5 rest b ih => simpa only [withoutStepsAll, withoutSteps, allKeyframesNames] using ih
  | case6 rest text ih => simpa only [withoutStepsAll, withoutSteps, allKeyframesNames] using ih

/-- Steps play no part in what stays the same during a pass. -/
theorem Compilation.context_withoutSteps (registry : Registry) (grid : Grid) (items : List Item) :
    context registry grid (Item.withoutStepsAll items) = context registry grid items := by
  simp only [context, Item.keyframesNames, Item.allKeyframesNames_withoutSteps]

variable {k : Context} {cell : Cell}

theorem Entry.withoutSteps_eq_mapKeyframes :
    withoutSteps = mapKeyframes Keyframes.withoutSteps := by
  funext e
  cases e <;> rfl

/-- A pseudo block leaves no keyframes in the log. -/
theorem PseudoBlock.map_mapKeyframes (f : Keyframes → Keyframes) (b : PseudoBlock) (p : Pass) :
    (b.compile k cell p).1.map (Entry.mapKeyframes f) = (b.compile k cell p).1 := by
  cases htarget : Target.ofSelector b.selector with
  | cell suffix => simp only [compile_cell htarget, List.map_cons, List.map_nil, Entry.mapKeyframes]
  | host selector =>
    rw [compile_host htarget]
    split <;> rfl

mutual

theorem Item.compile_withoutSteps (item : Item) (p : Pass) :
    item.withoutSteps.compile k cell p =
      ((item.compile k cell p).1.map Entry.withoutSteps, (item.compile k cell p).2) := by
  cases item with
  | declaration d =>
    simp only [withoutSteps, compile_declaration, List.map_cons, List.map_nil, Entry.withoutSteps]
  | pseudo b =>
    rw [withoutSteps, compile_pseudo, Entry.withoutSteps_eq_mapKeyframes,
      PseudoBlock.map_mapKeyframes]
    rfl
  | conditional name arguments items =>
    -- Whether the condition holds does not depend on what stands in the block.
    simp only [withoutSteps, compile_conditional]
    split
    · exact compileAll_withoutSteps items _
    · rfl
  | keyframes block =>
    simp only [withoutSteps, compile_keyframes, List.map_cons, List.map_nil, Entry.withoutSteps]
  | comment text => simp only [withoutSteps, compile_comment, List.map_nil]

theorem Item.compileAll_withoutSteps (items : List Item) (p : Pass) :
    compileAll k cell (withoutStepsAll items) p =
      ((compileAll k cell items p).1.map Entry.withoutSteps, (compileAll k cell items p).2) := by
  cases items with
  | nil => simp only [withoutStepsAll, compileAll_nil, List.map_nil]
  | cons item rest =>
    simp only [withoutStepsAll, compileAll_cons, compile_withoutSteps item,
      compileAll_withoutSteps rest, List.map_append]

end

/-- Without steps, a pass goes the same way and leaves the same log without steps. -/
theorem Item.compileCells_withoutSteps (items : List Item) (cells : List Cell) (p : Pass) :
    compileCells k (withoutStepsAll items) cells p =
      ((compileCells k items cells p).1.map Entry.withoutSteps,
        (compileCells k items cells p).2) := by
  induction cells generalizing p with
  | nil => rfl
  | cons cell rest ih =>
    simp only [compileCells_cons, compileAll_withoutSteps, ih, List.map_append]

/-- Keyframes in a log file nothing. -/
theorem Entry.sheet_mapKeyframes (f : Keyframes → Keyframes) (cellSelector : String)
    (log : List Entry) :
    sheet cellSelector (log.map (mapKeyframes f)) = sheet cellSelector log := by
  have hfile : ∀ s e, file cellSelector s (mapKeyframes f e) = file cellSelector s e := by
    intro s e
    cases e <;> rfl
  simp only [sheet, List.foldl_map, hfile]

theorem Entry.sheet_withoutSteps (cellSelector : String) (log : List Entry) :
    sheet cellSelector (log.map withoutSteps) = sheet cellSelector log := by
  rw [withoutSteps_eq_mapKeyframes, sheet_mapKeyframes]

namespace Compilation

theorem log_withoutSteps (registry : Registry) (grid : Grid) (items : List Item) (scope : Scope) :
    (run registry grid (Item.withoutStepsAll items) scope).1.log =
      (run registry grid items scope).1.log.map Entry.withoutSteps := by
  simp only [run_eq, context_withoutSteps, Item.compileCells_withoutSteps]

/-- Items that differ in the steps of their keyframes alone have the same rules in the same groups,
whatever these steps draw or recall. -/
theorem sheet_eq_of_withoutSteps {items items' : List Item}
    (h : Item.withoutStepsAll items = Item.withoutStepsAll items') (registry : Registry)
    (grid : Grid) (scope : Scope) (cellSelector : String) :
    Entry.sheet cellSelector (run registry grid items scope).1.log =
      Entry.sheet cellSelector (run registry grid items' scope).1.log := by
  calc Entry.sheet cellSelector (run registry grid items scope).1.log
      = Entry.sheet cellSelector (run registry grid (Item.withoutStepsAll items) scope).1.log := by
        rw [log_withoutSteps, Entry.sheet_withoutSteps]
    _ = Entry.sheet cellSelector (run registry grid items' scope).1.log := by
        rw [h, log_withoutSteps, Entry.sheet_withoutSteps]

/-- The steps of keyframes change nothing in the styles of host and cells. -/
theorem steps_do_not_interfere {items items' : List Item}
    (h : Item.withoutStepsAll items = Item.withoutStepsAll items') (registry : Registry)
    (grid : Grid) (scope : Scope) (cellSelector : String) :
    let styles := ((run registry grid items scope).1.output cellSelector).stylesheets
    let styles' := ((run registry grid items' scope).1.output cellSelector).stylesheets
    styles.host = styles'.host ∧ styles.cells = styles'.cells := by
  intro styles styles'
  have hsheet := sheet_eq_of_withoutSteps h registry grid scope cellSelector
  exact ⟨congrArg (·.render Selector.isHost) hsheet,
    congrArg (·.render (! Selector.isHost ·)) hsheet⟩

/-- Steps that draw and recall, in front of a declaration and in a conditional, against none. -/
theorem steps_do_not_interfere_rand :
    let step : KeyframeStep :=
      ⟨"from", [⟨"opacity", [.call "rand" [[.text "1px"], [.text "9px"]]]⟩]⟩
    let items (steps : List KeyframeStep) : List Item :=
      [.keyframes ⟨"fade", steps⟩,
        .declaration ⟨"width", [.call "rand" [[.text "1px"], [.text "9px"]]]⟩,
        .conditional "even" [] [.keyframes ⟨"spin", steps⟩,
          .declaration ⟨"animation-name", [.text "spin"]⟩],
        .pseudo ⟨0, ":doodle", [⟨"color", [.call "pick" [[.text "red"], [.text "blue"]]]⟩]⟩]
    let styles (steps : List KeyframeStep) :=
      ((run Registry.builtin (Grid.ofExtents 2 2) (items steps) ⟨{}, Words.ofSeed 7⟩).1.output
        ".cell").stylesheets
    Item.withoutStepsAll (items [step]) = Item.withoutStepsAll (items []) ∧
    (styles [step]).host = (styles []).host ∧ (styles [step]).cells = (styles []).cells := by
  intro step items styles
  have hitems : Item.withoutStepsAll (items [step]) = Item.withoutStepsAll (items []) := rfl
  exact ⟨hitems, steps_do_not_interfere hitems _ _ _ _⟩

end Compilation

end GridCss

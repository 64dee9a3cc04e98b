import GridCss.Proofs.HostBlocks
import GridCss.Proofs.Memoization

/-!
# Even and odd cells

The number of a pseudo block counts only if the block is for the host, so that items without such
blocks compile to the same under any numbers. Every cell is even or odd, and neither condition draws
or recalls anything. Items that stand in a conditional for the even cells and again in one for the
odd cells are therefore reached by each cell once, in the same order and in the same scope as if
they stood outside of conditionals.
-/

namespace GridCss

variable {k : Context} {cell : Cell}

def PseudoBlock.unnumbered (b : PseudoBlock) : PseudoBlock := { b with id := 0 }

mutual

/-- An item in which the numbers of all pseudo blocks, nested ones included, are zero. -/
def Item.unnumbered : Item → Item
  | .declaration d => .declaration d
  | .pseudo b => .pseudo b.unnumbered
  | .conditional name arguments items => .conditional name arguments (Item.unnumberedAll items)
  | .keyframes block => .keyframes block
  | .comment text => .comment text

def Item.unnumberedAll : List Item → List Item
  | [] => []
  | item :: rest => item.unnumbered :: Item.unnumberedAll rest

end

theorem Item.allKeyframesNames_unnumbered (items : List Item) :
    allKeyframesNames (unnumberedAll items) = allKeyframesNames items := by
  fun_induction allKeyframesNames items with
  | case1 => simp only [unnumberedAll, allKeyframesNames]
  | case2 rest block ih => simp only [unnumberedAll, unnumbered, allKeyframesNames, ih]
  | case3 rest name arguments items ihItems ihRest =>
    simp only [unnumberedAll, unnumbered, allKeyframesNames, ihItems, ihRest]
  | case4 rest d ih => simpa only [unnumberedAll, unnumbered, allKeyframesNames] using ih
  | case5 rest b ih => simpa only [unnumberedAll, unnumbered, allKeyframesNames] using ih
  | case6 rest text ih => simpa only [unnumberedAll, unnumbered, allKeyframesNames] using ih

mutual

theorem Item.blocks_unnumbered (item : Item) :
    item.unnumbered.blocks = item.blocks.map PseudoBlock.unnumbered := by
  cases item with
  | conditional name arguments items =>
    simp only [unnumbered, blocks, blocksAll_unnumbered items]
  | declaration | pseudo | keyframes | comment =>
    simp only [unnumbered, blocks, List.map_cons, List.map_nil]

theorem Item.blocksAll_unnumbered (items : List Item) :
    blocksAll (unnumberedAll items) = (blocksAll items).map PseudoBlock.unnumbered := by
  cases items with
  | nil => simp only [unnumberedAll, blocksAll, List.map_nil]
  | cons item rest =>
    simp only [unnumberedAll, blocksAll, List.map_append, blocks_unnumbered item,
      blocksAll_unnumbered rest]

end

/-- Numbers apart, two lists of items have the same selectors. -/
theorem Item.exists_selector_of_unnumbered {items copy : List Item}
    (h : unnumberedAll copy = unnumberedAll items) {b : PseudoBlock} (hb : b ∈ blocksAll copy) :
    ∃ b' ∈ blocksAll items, b'.selector = b.selector := by
  have hmem : b.unnumbered ∈ (blocksAll items).map PseudoBlock.unnumbered := by
    rw [← blocksAll_unnumbered, ← h, blocksAll_unnumbered]
    exact List.mem_map_of_mem hb
  obtain ⟨b', hb', heq⟩ := List.mem_map.mp hmem
  have hselector : b'.unnumbered.selector = b.unnumbered.selector := by rw [heq]
  exact ⟨b', hb', hselector⟩

theorem PseudoBlock.compile_unnumbered {b : PseudoBlock}
    (h : Selector.isHost (Selector.resolve b.selector) = false) (p : Pass) :
    b.unnumbered.compile k cell p = b.compile k cell p := by
  have htarget : Target.ofSelector b.selector = .cell (Selector.resolve b.selector) := by
    rw [Target.ofSelector_eq, h]
    rfl
  have htarget' : Target.ofSelector b.unnumbered.selector =
    .cell (Selector.resolve b.selector) := htarget
  rw [compile_cell htarget, compile_cell htarget']
  rfl

mutual

theorem Item.compile_unnumbered (item : Item)
    (h : ∀ b ∈ item.blocks, Selector.isHost (Selector.resolve b.selector) = false) (p : Pass) :
    item.unnumbered.compile k cell p = item.compile k cell p := by
  cases item with
  | pseudo b =>
    rw [unnumbered, compile_pseudo, compile_pseudo]
    exact PseudoBlock.compile_unnumbered (h b (by simp [blocks])) p
  | conditional name arguments items =>
    have hitems : ∀ p', compileAll k cell (unnumberedAll items) p' = compileAll k cell items p' :=
      compileAll_unnumbered items (by simpa only [blocks] using h)
    simp only [unnumbered, compile_conditional, hitems]
  | declaration | keyframes | comment => simp only [unnumbered]

theorem Item.compileAll_unnumbered (items : List Item)
    (h : ∀ b ∈ blocksAll items, Selector.isHost (Selector.resolve b.selector) = false) (p : Pass) :
    compileAll k cell (unnumberedAll items) p = compileAll k cell items p := by
  cases items with
  | nil => simp only [unnumberedAll]
  | cons item rest =>
    simp only [blocksAll, List.forall_mem_append] at h
    simp only [unnumberedAll, compileAll_cons, compile_unnumbered item h.1,
      compileAll_unnumbered rest h.2]

end

/-- Without host blocks, numbers make no difference to a cell. -/
theorem Item.compileAll_eq_of_unnumbered {items copy : List Item}
    (hcopy : unnumberedAll copy = unnumberedAll items)
    (hhost : ∀ b ∈ blocksAll items, Selector.isHost (Selector.resolve b.selector) = false)
    (p : Pass) : compileAll k cell copy p = compileAll k cell items p := by
  have hhost' : ∀ b ∈ blocksAll copy, Selector.isHost (Selector.resolve b.selector) = false := by
    intro b hb
    obtain ⟨b', hb', hselector⟩ := exists_selector_of_unnumbered hcopy hb
    rw [← hselector]
    exact hhost b' hb'
  rw [← compileAll_unnumbered copy hhost', hcopy, compileAll_unnumbered items hhost]

theorem Item.compile_conditional_of_pure {name : String} {arguments : List (List Argument)}
    {b : Bool} (h : holds k cell name arguments = pure b) (items : List Item) (p : Pass) :
    (Item.conditional name arguments items).compile k cell p =
      if b then compileAll k cell items p else ([], p) := by
  rw [compile_conditional, h]
  rfl

/-- Of two conditionals with the same items and opposite conditions, a cell reaches one. -/
theorem Item.compileAll_of_opposite {name name' : String}
    {arguments arguments' : List (List Argument)} {b : Bool}
    (h : holds k cell name arguments = pure b) (h' : holds k cell name' arguments' = pure !b)
    {items copy : List Item} {p : Pass}
    (hcopy : compileAll k cell copy p = compileAll k cell items p) :
    compileAll k cell [.conditional name arguments items, .conditional name' arguments' copy] p =
      compileAll k cell items p := by
  simp only [compileAll_cons, compileAll_nil, compile_conditional_of_pure h,
    compile_conditional_of_pure h']
  cases b with
  | false =>
    simp only [Bool.false_eq_true, if_false, Bool.not_false, if_true, hcopy, List.nil_append,
      List.append_nil]
    rfl
  | true =>
    simp only [Bool.not_true, Bool.false_eq_true, if_true, if_false, List.append_nil]
    rfl

theorem holds_even (hk : k.registry = Registry.builtin) :
    holds k cell "even" [] = pure (cell.index % 2 == 0) := by
  rw [holds, hk]
  rfl

theorem holds_odd (hk : k.registry = Registry.builtin) :
    holds k cell "odd" [] = pure !(cell.index % 2 == 0) := by
  have hodd : holds k cell "odd" [] = pure (cell.index % 2 == 1) := by
    rw [holds, hk]
    rfl
  rw [hodd]
  rcases Nat.mod_two_eq_zero_or_one cell.index with h | h <;> rw [h] <;> rfl

/-- A pass goes the same way over items that compile to the same for every cell. -/
theorem Item.compileCells_congr {items items' : List Item}
    (h : ∀ cell p, compileAll k cell items p = compileAll k cell items' p) (cells : List Cell)
    (p : Pass) : compileCells k items cells p = compileCells k items' cells p := by
  induction cells generalizing p with
  | nil => rfl
  | cons cell rest ih => simp only [compileCells_cons, h, ih]

/-- The items for the even cells, and a copy of them for the odd ones. -/
def Item.parityHalves (items copy : List Item) : List Item :=
  [.conditional "even" [] items, .conditional "odd" [] copy]

/-- The copy declares no further keyframes. -/
theorem Item.keyframesNames_parityHalves {items copy : List Item}
    (h : unnumberedAll copy = unnumberedAll items) :
    keyframesNames (parityHalves items copy) = keyframesNames items := by
  have hcopy : allKeyframesNames copy = allKeyframesNames items := by
    rw [← allKeyframesNames_unnumbered, h, allKeyframesNames_unnumbered]
  have hagain : (allKeyframesNames items).removeAll (allKeyframesNames items) = [] := by
    simp [List.removeAll]
  simp only [keyframesNames, parityHalves, allKeyframesNames, hcopy, List.append_nil]
  rw [List.eraseDups_append, hagain, List.eraseDups_nil, List.append_nil]

namespace Compilation

theorem run_parityHalves {items copy : List Item}
    (hcopy : Item.unnumberedAll copy = Item.unnumberedAll items)
    (hhost : ∀ b ∈ Item.blocksAll items, Selector.isHost (Selector.resolve b.selector) = false)
    (grid : Grid) (scope : Scope) :
    run Registry.builtin grid (Item.parityHalves items copy) scope =
      run Registry.builtin grid items scope := by
  have hcontext : context Registry.builtin grid (Item.parityHalves items copy) =
      context Registry.builtin grid items := by
    simp only [context, Item.keyframesNames_parityHalves hcopy]
  have hcell : ∀ cell p,
      Item.compileAll (context Registry.builtin grid items) cell (Item.parityHalves items copy) p =
        Item.compileAll (context Registry.builtin grid items) cell items p := fun _ _ =>
    Item.compileAll_of_opposite (holds_even rfl) (holds_odd rfl)
      (Item.compileAll_eq_of_unnumbered hcopy hhost _)
  simp only [run_eq, hcontext, Item.compileCells_congr hcell]

end Compilation

namespace Compiler

/-- Even and odd cells share a compilation out between them. Items without host blocks, once for the
even cells and once, under any numbers of their blocks, for the odd cells, compile to the output of
these items alone and leave the same memo. Nothing else of the compilation differs either: it draws
the same words, whatever memo and words it starts from. -/
theorem generate_even_odd (seed : UInt64) (cellSelector : String) (memo : Memo)
    {items copy : List Item} (hcopy : Item.unnumberedAll copy = Item.unnumberedAll items)
    (hhost : ∀ b ∈ Item.blocksAll items, Selector.isHost (Selector.resolve b.selector) = false)
    (grid : Grid) :
    let c : Compiler :=
      { seed := seed, cellSelector := cellSelector, registry := Registry.builtin, memo := memo }
    c.generate (Item.parityHalves items copy) grid = c.generate items grid ∧
      ∀ scope, Compilation.run Registry.builtin grid (Item.parityHalves items copy) scope =
        Compilation.run Registry.builtin grid items scope := by
  intro c
  have hrun := Compilation.run_parityHalves hcopy hhost grid
  refine ⟨?_, hrun⟩
  rw [generate_eq, generate_eq, hrun]

/-- Blocks, keyframes and a nested conditional that draw and recall, the second copy with numbers of
its own. -/
theorem generate_even_odd_nested :
    let items (first : Nat) : List Item :=
      [.pseudo ⟨first, ":hover", [⟨"width", [.call "rand" [[.text "1px"], [.text "9px"]]]⟩]⟩,
        .keyframes ⟨"spin", [⟨"to", [⟨"top", [.call "random" []]⟩]⟩]⟩,
        .conditional "row" [[.text "odd"]]
          [.declaration ⟨"animation", [.text "1s ", .call "pick" [[.text "spin"], [.text "fade"]]]⟩,
            .pseudo ⟨first + 1, "::after", [⟨"clip-path", [.call "shape" [[.text "circle"]]]⟩]⟩,
            .keyframes ⟨"fade", []⟩]]
    let c : Compiler := { seed := 7, cellSelector := "div" }
    let grid := Grid.ofExtents 3 3
    Item.unnumberedAll (items 5) = Item.unnumberedAll (items 0) ∧
      (∀ b ∈ Item.blocksAll (items 0),
        Selector.isHost (Selector.resolve b.selector) = false) ∧
      c.generate [.conditional "even" [] (items 0), .conditional "odd" [] (items 5)] grid =
        c.generate (items 0) grid := by
  intro items c grid
  have hcopy : Item.unnumberedAll (items 5) = Item.unnumberedAll (items 0) := rfl
  have hhost : ∀ b ∈ Item.blocksAll (items 0),
      Selector.isHost (Selector.resolve b.selector) = false := by decide
  exact ⟨hcopy, hhost, (generate_even_odd 7 "div" {} hcopy hhost grid).1⟩

end Compiler

end GridCss

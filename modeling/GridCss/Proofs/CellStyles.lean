import Mathlib.Data.List.Nodup
import GridCss.Proofs.BuiltinFunctions
import GridCss.Proofs.FiledRules
import GridCss.Proofs.JoinedText
import GridCss.Proofs.Visits

/-!
# The styles of single cells

The selector of a cell names its index, so that no two cells share a group and no cell shares one
with the host. The groups of the cells are therefore those of each cell alone, one cell after the
other. Compiling more rows adds groups at the end and changes none; and where nothing is drawn or
recalled, each cell has the styles that it would have without the others.
-/

namespace GridCss

namespace Selector

theorem toList_ofCell (cellSelector : String) (index : Nat) (suffix : String) :
    (ofCell cellSelector index suffix).toList =
      cellSelector.toList ++ ":nth-of-type(".toList ++ Nat.toDigits 10 index ++
        ')' :: suffix.toList := by
  simp [ofCell, String.toList_append, toString]

theorem ofCell_inj {cellSelector : String} {i j : Nat} {a b : String}
    (h : ofCell cellSelector i a = ofCell cellSelector j b) : i = j ∧ a = b := by
  have hl := congrArg String.toList h
  simp only [toList_ofCell, List.append_assoc, List.append_cancel_left_eq] at hl
  have hparen : ∀ n, ∀ c ∈ Nat.toDigits 10 n, (c != ')') = true := by
    intro n c hc
    have hdigit := Nat.isDigit_of_mem_toDigits (by decide) (by decide) hc
    simp only [bne_iff_ne]
    rintro rfl
    exact absurd hdigit (by decide)
  -- The number ends at the first closing bracket.
  have hdigits := congrArg (List.takeWhile (· != ')')) hl
  rw [List.takeWhile_append_of_pos (hparen i), List.takeWhile_append_of_pos (hparen j)] at hdigits
  simp only [bne_self_eq_false, Bool.false_eq_true, not_false_eq_true, List.takeWhile_cons_of_neg,
    List.append_nil] at hdigits
  have hij : i = j := by
    rw [← @Nat.ofDigitChars_ten_toDigits i, hdigits, Nat.ofDigitChars_ten_toDigits]
  rw [hij] at hl
  exact ⟨hij, String.toList_inj.mp (List.cons.inj (List.append_cancel_left hl)).2⟩

theorem isHost_ofCell {cellSelector : String} (h : isHost cellSelector = false) (index : Nat)
    (suffix : String) : isHost (ofCell cellSelector index suffix) = false := by
  simp only [isHost, Text.startsWith, toList_ofCell] at h ⊢
  generalize cellSelector.toList = cs at h ⊢
  match cs with
  | [] => simp [List.isPrefixOf]
  | [a] => simp [List.isPrefixOf]
  | [a, b] => simp [List.isPrefixOf]
  | [a, b, c] => simp [List.isPrefixOf]
  | [a, b, c, d] => simp [List.isPrefixOf]
  | a :: b :: c :: d :: e :: r => simpa [List.isPrefixOf] using h

end Selector

namespace Grid

theorem rowCells_pairwise (cols row : Nat) :
    (rowCells cols row).Pairwise fun a b => a.index < b.index := by
  unfold rowCells
  rw [List.pairwise_map]
  exact List.pairwise_lt_range.imp fun h => by simpa using h

/-- Cells are numbered in increasing order. -/
theorem cells_pairwise (g : Grid) : g.cells.Pairwise fun a b => a.index < b.index := by
  unfold cells
  rw [List.pairwise_flatMap]
  refine ⟨fun row _ => rowCells_pairwise g.cols row, List.pairwise_lt_range.imp ?_⟩
  intro row row' hrow a ha b hb
  simp only [rowCells, List.mem_map, List.mem_range] at ha hb
  obtain ⟨col, hcol, rfl⟩ := ha
  obtain ⟨col', -, rfl⟩ := hb
  have hrows : (row + 1) * g.cols ≤ row' * g.cols := Nat.mul_le_mul_right _ hrow
  rw [Nat.succ_mul] at hrows
  show row * g.cols + col + 1 < row' * g.cols + col' + 1
  omega

theorem eq_of_index_eq {g : Grid} {a b : Cell} (ha : a ∈ g.cells) (hb : b ∈ g.cells)
    (h : a.index = b.index) : a = b := by
  have hindices : (g.cells.map Cell.index).Nodup :=
    List.pairwise_map.mpr (g.cells_pairwise.imp fun hlt => Nat.ne_of_lt hlt)
  exact List.inj_on_of_nodup_map hindices ha hb h

/-- A grid with more rows has the same cells, and others behind them. -/
theorem cells_prefix {g g' : Grid} (hcols : g.cols = g'.cols) (hrows : g.rows ≤ g'.rows) :
    g.cells <+: g'.cells := by
  obtain ⟨n, hn⟩ := Nat.exists_eq_add_of_le hrows
  unfold cells
  rw [hn, List.range_add, List.flatMap_append, hcols]
  exact List.prefix_append _ _

end Grid

namespace Entry

/-- What an entry files, if it has rules. -/
def filing? (cellSelector : String) : Entry → Option Filing
  | .rules cell target rs => some (target.selector cellSelector cell, rs.map Rule.text)
  | .keyframes .. => none

/-- What an entry files for its cell. -/
def cellFiling? (cellSelector : String) : Entry → Option Filing
  | .rules cell (.cell suffix) rs =>
    some (Selector.ofCell cellSelector cell.index suffix, rs.map Rule.text)
  | .rules _ (.host _) _ | .keyframes .. => none

theorem sheet_eq_fileAll (cellSelector : String) (log : List Entry) :
    sheet cellSelector log = RuleSheet.fileAll {} (log.filterMap (filing? cellSelector)) := by
  unfold sheet RuleSheet.fileAll
  generalize ({} : RuleSheet) = s
  induction log generalizing s with
  | nil => rfl
  | cons e log ih => cases e <;> simp [file, filing?, ih, List.filterMap_cons]

/-- Rules that are not for the host are those that are filed for a cell. -/
theorem filter_filings {cellSelector : String} (hs : Selector.isHost cellSelector = false)
    {log : List Entry}
    (hlog : ∀ e ∈ log, ∀ cell selector rules, e = .rules cell (.host selector) rules →
      Selector.isHost selector) :
    (log.filterMap (filing? cellSelector)).filter (! Selector.isHost ·.1) =
      log.filterMap (cellFiling? cellSelector) := by
  induction log with
  | nil => rfl
  | cons e log ih =>
    rw [List.forall_mem_cons] at hlog
    cases e with
    | keyframes cell block => simpa [filing?, cellFiling?, List.filterMap_cons] using ih hlog.2
    | rules cell target rs =>
      cases target with
      | cell suffix =>
        have hcell := Selector.isHost_ofCell hs cell.index suffix
        simp [filing?, cellFiling?, Target.selector, hcell, ih hlog.2]
      | host selector =>
        have hhost := hlog.1 cell selector rs rfl
        simp [filing?, cellFiling?, Target.selector, hhost, ih hlog.2, List.filterMap_cons]

theorem mem_cellFilings {cellSelector : String} {log : List Entry} {f : Filing}
    (hf : f ∈ log.filterMap (cellFiling? cellSelector)) :
    ∃ e ∈ log, ∃ suffix, f.1 = Selector.ofCell cellSelector e.cell.index suffix := by
  obtain ⟨e, he, heq⟩ := List.mem_filterMap.mp hf
  refine ⟨e, he, ?_⟩
  cases e with
  | keyframes cell block => simp [cellFiling?] at heq
  | rules cell target rs =>
    cases target with
    | host selector => simp [cellFiling?] at heq
    | cell suffix =>
      rw [← Option.some.inj heq]
      exact ⟨suffix, rfl⟩

/-- Logs of different cells file under different selectors. -/
theorem cellFilings_ne {cellSelector : String} {log log' : List Entry}
    (h : ∀ e ∈ log, ∀ e' ∈ log', e.cell.index ≠ e'.cell.index) :
    ∀ f ∈ log.filterMap (cellFiling? cellSelector),
      ∀ f' ∈ log'.filterMap (cellFiling? cellSelector), f.1 ≠ f'.1 := by
  intro f hf f' hf' heq
  obtain ⟨e, he, suffix, hsel⟩ := mem_cellFilings hf
  obtain ⟨e', he', suffix', hsel'⟩ := mem_cellFilings hf'
  rw [hsel, hsel'] at heq
  exact h e he e' he' (Selector.ofCell_inj heq).1

/-- The groups of a log that are not for the host. -/
theorem groups_sheet {cellSelector : String} (hs : Selector.isHost cellSelector = false)
    {log : List Entry}
    (hlog : ∀ e ∈ log, ∀ cell selector rules, e = .rules cell (.host selector) rules →
      Selector.isHost selector) :
    (sheet cellSelector log).groups.filter (! Selector.isHost ·.selector) =
      (RuleSheet.fileAll {} (log.filterMap (cellFiling? cellSelector))).groups := by
  have h := RuleSheet.restrict_fileAll {} (! Selector.isHost ·)
    (log.filterMap (filing? cellSelector))
  rw [filter_filings hs hlog, ← sheet_eq_fileAll] at h
  exact congrArg RuleSheet.groups h

end Entry

variable {k : Context} {cell : Cell}

theorem Item.compileCells_append (items : List Item) (cells more : List Cell) (p : Pass) :
    (Item.compileCells k items (cells ++ more) p).1 =
      (Item.compileCells k items cells p).1 ++
        (Item.compileCells k items more (Item.compileCells k items cells p).2).1 := by
  induction cells generalizing p with
  | nil => rfl
  | cons cell rest ih =>
    simp only [List.cons_append, Item.compileCells_cons, ih, List.append_assoc]

theorem Item.isHost_of_mem_compileCells {items : List Item} {cells : List Cell} {p : Pass} :
    ∀ e ∈ (Item.compileCells k items cells p).1, ∀ cell selector rules,
      e = .rules cell (.host selector) rules → Selector.isHost selector := by
  intro e he
  obtain ⟨v, hv, hev, -⟩ := Item.mem_compileCells he
  exact (Visit.mem_entries (Item.mem_visitCells hv).2 hev).2

theorem Item.cell_of_mem_compileCells {items : List Item} {cells : List Cell} {p : Pass} {e : Entry}
    (he : e ∈ (Item.compileCells k items cells p).1) : e.cell ∈ cells := by
  obtain ⟨v, hv, -, hcell⟩ := Item.mem_compileCells he
  rw [hcell]
  exact (Item.mem_visitCells hv).1

namespace Compilation

/-- The groups that make up the styles of the cells. -/
def cellGroups (c : Compilation) (cellSelector : String) : List RuleGroup :=
  (Entry.sheet cellSelector c.log).groups.filter (! Selector.isHost ·.selector)

theorem cells_output (c : Compilation) (cellSelector : String) :
    (c.output cellSelector).stylesheets.cells =
      "\n".intercalate ((c.cellGroups cellSelector).map RuleGroup.text) := rfl

/-- More rows below those of a grid leave the groups of its cells as they are, whatever is drawn or
recalled. -/
theorem cellGroups_prefix (registry : Registry) (items : List Item) (scope : Scope)
    {cellSelector : String} (hs : Selector.isHost cellSelector = false) {g g' : Grid}
    (hcols : g.cols = g'.cols) (hrows : g.rows ≤ g'.rows) (hcount : 1 < g.count) :
    cellGroups (run registry g items scope).1 cellSelector <+:
      cellGroups (run registry g' items scope).1 cellSelector := by
  have hcount' : 1 < g'.count := by
    have := Nat.mul_le_mul_right g.cols hrows
    unfold Grid.count at hcount ⊢
    rw [← hcols]
    omega
  -- Both grids have several cells, so that animations are renamed in both.
  have hcontext : context registry g' items = context registry g items := by
    simp [context, hcount, hcount']
  obtain ⟨more, hmore⟩ := Grid.cells_prefix hcols hrows
  have hdistinct := g'.cells_pairwise
  rw [← hmore, List.pairwise_append] at hdistinct
  simp only [cellGroups, run_eq, hcontext, ← hmore, Item.compileCells_append]
  rw [Entry.groups_sheet hs Item.isHost_of_mem_compileCells,
    Entry.groups_sheet hs (List.forall_mem_append.mpr
      ⟨Item.isHost_of_mem_compileCells, Item.isHost_of_mem_compileCells⟩),
    List.filterMap_append, RuleSheet.groups_fileAll_append]
  · exact List.prefix_append _ _
  · refine Entry.cellFilings_ne fun e he e' he' => ?_
    have hlt := hdistinct.2.2 _ (Item.cell_of_mem_compileCells he) _
      (Item.cell_of_mem_compileCells he')
    exact Nat.ne_of_lt hlt

/-- Two rows of picked colours are the beginning of three. -/
theorem cellGroups_prefix_pick :
    let items : List Item :=
      [.declaration ⟨"color", [.call "pick" [[.text "red"], [.text "blue"]]]⟩,
        .pseudo ⟨0, ":doodle", [⟨"gap", [.text "1px"]⟩]⟩]
    let compiled (g : Grid) := (run Registry.builtin g items ⟨{}, Words.ofSeed 7⟩).1
    Selector.isHost ".cell" = false ∧ 1 < (Grid.ofExtents 2 2).count ∧
    (compiled (Grid.ofExtents 2 2)).cellGroups ".cell" <+:
      (compiled (Grid.ofExtents 3 2)).cellGroups ".cell" :=
  ⟨by decide, by decide,
    cellGroups_prefix _ _ _ (by decide) (by decide) (by decide) (by decide)⟩

end Compilation

/-- All scopes belong together: what keeps to this coupling depends on no scope. -/
def Coupling.anyScopes : Coupling Scope Scope where
  related := fun _ _ => True

theorem Coupling.eq_of_anyScopes {α : Type} {m m' : StateM Scope α}
    (h : Coupling.anyScopes.Matches Eq m m') (s t : Scope) : (m s).1 = (m' t).1 := by
  rcases h.step s t trivial with ht | ⟨heq, -⟩
  · exact ht.elim
  · exact heq

theorem Coupling.anyScopes_builtin :
    Coupling.anyScopes.Registries (· ∉ Generative.statefulNames) Registry.builtin
      Registry.builtin where
  function := by
    intro name hname
    cases h : Registry.builtin.function? name with
    | none => exact .none
    | some f => exact .some (functions_of_isPure (Registry.builtin_function_isPure h hname))
  predicate := by
    intro name
    cases h : Registry.builtin.predicate? name with
    | none => exact .none
    | some f => exact .some (functions_of_isPure (Registry.builtin_predicate_isPure h))

theorem Context.couples_anyScopes (hk : k.registry = Registry.builtin) :
    Coupling.anyScopes.Contexts (· ∉ Generative.statefulNames) k k :=
  ⟨hk ▸ Coupling.anyScopes_builtin, rfl, rfl⟩

mutual

/-- Stateless items file the same rules for a cell in whatever state they are reached. -/
theorem Item.cellFilings_compile (hk : k.registry = Registry.builtin) {item : Item}
    (hi : Generative.AreStateless item.callNames) (cellSelector : String) (p q : Pass) :
    (item.compile k cell p).1.filterMap (Entry.cellFiling? cellSelector) =
      (item.compile k cell q).1.filterMap (Entry.cellFiling? cellSelector) := by
  have hcontexts := Context.couples_anyScopes hk
  cases item with
  | declaration d =>
    simp only [Item.callNames] at hi
    have hrule : (d.compile k cell p.scope).1 = (d.compile k cell q.scope).1 :=
      Coupling.eq_of_anyScopes (hcontexts.compile d hi) p.scope q.scope
    simp only [Item.compile_declaration, hrule]
  | pseudo b =>
    simp only [Item.callNames] at hi
    have hrules : (Declaration.compileAll k cell b.declarations p.scope).1 =
        (Declaration.compileAll k cell b.declarations q.scope).1 :=
      Coupling.eq_of_anyScopes (hcontexts.compileAll b.declarations hi) p.scope q.scope
    simp only [Item.compile_pseudo]
    cases htarget : Target.ofSelector b.selector with
    | cell suffix => simp only [PseudoBlock.compile_cell htarget, hrules]
    | host selector =>
      -- Whether it is noted or not, a host block files nothing for the cell.
      rw [PseudoBlock.compile_host htarget, PseudoBlock.compile_host htarget]
      split <;> split <;> rfl
  | conditional name arguments items =>
    simp only [Item.callNames, Generative.areStateless_append] at hi
    have hholds : (Pass.inScope (holds k cell name arguments) p).1 =
        (Pass.inScope (holds k cell name arguments) q).1 :=
      Coupling.eq_of_anyScopes (hcontexts.holds name arguments hi.1) p.scope q.scope
    simp only [Item.compile_conditional, hholds]
    split
    · exact Item.cellFilings_compileAll hk hi.2 cellSelector _ _
    · rfl
  | keyframes block => simp only [Item.compile_keyframes]
  | comment text => simp only [Item.compile_comment]

theorem Item.cellFilings_compileAll (hk : k.registry = Registry.builtin) {items : List Item}
    (hi : Generative.AreStateless (Item.callNamesAll items)) (cellSelector : String)
    (p q : Pass) :
    (Item.compileAll k cell items p).1.filterMap (Entry.cellFiling? cellSelector) =
      (Item.compileAll k cell items q).1.filterMap (Entry.cellFiling? cellSelector) := by
  cases items with
  | nil => simp only [Item.compileAll_nil]
  | cons item rest =>
    simp only [Item.callNamesAll, Generative.areStateless_append] at hi
    simp only [Item.compileAll_cons, List.filterMap_append]
    rw [Item.cellFilings_compile hk hi.1 cellSelector p q,
      Item.cellFilings_compileAll hk hi.2 cellSelector _ (item.compile k cell q).2]

end

theorem Item.cellFilings_compileCells (hk : k.registry = Registry.builtin) {items : List Item}
    (hi : Generative.AreStateless (Item.callNamesAll items)) (cellSelector : String)
    (cells : List Cell) (p q : Pass) :
    (Item.compileCells k items cells p).1.filterMap (Entry.cellFiling? cellSelector) =
      cells.flatMap fun cell =>
        (Item.compileAll k cell items q).1.filterMap (Entry.cellFiling? cellSelector) := by
  induction cells generalizing p with
  | nil => rfl
  | cons cell rest ih =>
    simp only [Item.compileCells_cons, List.filterMap_append, List.flatMap_cons, ih]
    rw [Item.cellFilings_compileAll hk hi cellSelector p q]

theorem Item.compileCells_singleton (items : List Item) (p : Pass) :
    (Item.compileCells k items [cell] p).1 = (Item.compileAll k cell items p).1 :=
  List.append_nil _

theorem Item.cell_of_mem_compileAll {items : List Item} {p : Pass} {e : Entry}
    (he : e ∈ (Item.compileAll k cell items p).1) : e.cell = cell := by
  rw [← Item.compileCells_singleton] at he
  exact List.mem_singleton.mp (Item.cell_of_mem_compileCells he)

theorem RuleGroup.text_ne_empty (g : RuleGroup) : g.text ≠ "" := by
  intro h
  have hlength := congrArg (fun s => s.toList.length) h
  simp [RuleGroup.text] at hlength

namespace Compilation

/-- The sheet of one cell alone. -/
def sheetAlone (registry : Registry) (grid : Grid) (items : List Item) (scope : Scope)
    (cellSelector : String) (cell : Cell) : RuleSheet :=
  Entry.sheet cellSelector
    (Item.compileAll (context registry grid items) cell items { scope := scope }).1

/-- The groups of one cell alone that are not for the host. -/
def groupsAlone (registry : Registry) (grid : Grid) (items : List Item) (scope : Scope)
    (cellSelector : String) (cell : Cell) : List RuleGroup :=
  (sheetAlone registry grid items scope cellSelector cell).groups.filter
    (! Selector.isHost ·.selector)

/-- What one cell alone files for itself. -/
def filingsAlone (registry : Registry) (grid : Grid) (items : List Item) (scope : Scope)
    (cellSelector : String) (cell : Cell) : List Filing :=
  (Item.compileAll (context registry grid items) cell items { scope := scope }).1.filterMap
    (Entry.cellFiling? cellSelector)

section

variable (registry : Registry) (grid : Grid) (items : List Item) (scope : Scope)

theorem groupsAlone_eq {cellSelector : String} (hs : Selector.isHost cellSelector = false)
    (cell : Cell) :
    groupsAlone registry grid items scope cellSelector cell =
      (RuleSheet.fileAll {} (filingsAlone registry grid items scope cellSelector cell)).groups := by
  rw [groupsAlone, sheetAlone, filingsAlone, ← Item.compileCells_singleton]
  exact Entry.groups_sheet hs Item.isHost_of_mem_compileCells

/-- Cells file under selectors of their own. -/
theorem filingsAlone_pairwise (cellSelector : String) :
    grid.cells.Pairwise fun a b =>
      ∀ f ∈ filingsAlone registry grid items scope cellSelector a,
        ∀ f' ∈ filingsAlone registry grid items scope cellSelector b, f.1 ≠ f'.1 := by
  refine grid.cells_pairwise.imp fun {a b} hlt => Entry.cellFilings_ne fun e he e' he' => ?_
  rw [Item.cell_of_mem_compileAll he, Item.cell_of_mem_compileAll he']
  exact Nat.ne_of_lt hlt

/-- No two cells have a selector in common. -/
theorem groupsAlone_pairwise {cellSelector : String} (hs : Selector.isHost cellSelector = false) :
    grid.cells.Pairwise fun a b =>
      ∀ g ∈ groupsAlone registry grid items scope cellSelector a,
        ∀ g' ∈ groupsAlone registry grid items scope cellSelector b, g.selector ≠ g'.selector := by
  refine (filingsAlone_pairwise registry grid items scope cellSelector).imp ?_
  intro a b hne g hg g' hg'
  rw [groupsAlone_eq registry grid items scope hs] at hg hg'
  rcases RuleSheet.mem_groups_fileAll hg with hg | ⟨f, hf, hsel⟩
  · cases hg
  rcases RuleSheet.mem_groups_fileAll hg' with hg' | ⟨f', hf', hsel'⟩
  · cases hg'
  rw [hsel, hsel']
  exact hne f hf f' hf'

end

/-- Where nothing is drawn or recalled, cells are compiled independently: their groups are those of
each cell alone, in whatever scope, one cell after the other, and no two cells have a selector in
common. -/
theorem cells_independent {items : List Item}
    (hi : Generative.AreStateless (Item.callNamesAll items)) (grid : Grid) {cellSelector : String}
    (hs : Selector.isHost cellSelector = false) (scope scope' : Scope) :
    let alone := groupsAlone Registry.builtin grid items scope' cellSelector
    let compiled := (run Registry.builtin grid items scope).1
    compiled.cellGroups cellSelector = grid.cells.flatMap alone ∧
    grid.cells.Pairwise (fun a b => ∀ g ∈ alone a, ∀ g' ∈ alone b, g.selector ≠ g'.selector) ∧
    (compiled.output cellSelector).stylesheets.cells =
      "\n".intercalate ((grid.cells.map fun cell =>
        (sheetAlone Registry.builtin grid items scope' cellSelector cell).render
          (! Selector.isHost ·)).filter (! ·.isEmpty)) := by
  intro alone compiled
  have hgroups : compiled.cellGroups cellSelector = grid.cells.flatMap alone := by
    have hlog := Item.cellFilings_compileCells (k := context Registry.builtin grid items) rfl hi
      cellSelector grid.cells { scope := scope } { scope := scope' }
    have halone : alone = fun cell => (RuleSheet.fileAll {}
        (filingsAlone Registry.builtin grid items scope' cellSelector cell)).groups :=
      funext (groupsAlone_eq Registry.builtin grid items scope' hs)
    simp only [cellGroups, compiled, run_eq]
    rw [Entry.groups_sheet hs Item.isHost_of_mem_compileCells, hlog, halone]
    exact RuleSheet.groups_fileAll_flatMap _
      (filingsAlone_pairwise Registry.builtin grid items scope' cellSelector)
  refine ⟨hgroups, groupsAlone_pairwise Registry.builtin grid items scope' hs, ?_⟩
  rw [cells_output, hgroups, List.map_flatMap]
  exact Text.intercalate_flatMap "\n" (fun cell => (alone cell).map RuleGroup.text)
    (fun cell => List.forall_mem_map.mpr fun g _ => g.text_ne_empty) grid.cells

/-- Four cells with a host block, a part of a cell and a condition on it. -/
theorem cells_independent_hover :
    let items : List Item :=
      [.declaration ⟨"order", [.call "index" []]⟩,
        .pseudo ⟨0, ":doodle", [⟨"gap", [.text "1px"]⟩]⟩,
        .conditional "even" [] [.pseudo ⟨1, ":hover", [⟨"color", [.text "red"]⟩]⟩]]
    let grid := Grid.ofExtents 2 2
    let scope : Scope := ⟨{}, Words.ofSeed 0⟩
    Generative.AreStateless (Item.callNamesAll items) ∧
    Selector.isHost ".cell" = false ∧
    (run Registry.builtin grid items scope).1.cellGroups ".cell" =
      grid.cells.flatMap (groupsAlone Registry.builtin grid items scope ".cell") :=
  ⟨by decide, by decide, (cells_independent (by decide) _ (by decide) _ _).1⟩

end Compilation

end GridCss

import GridCss.Proofs.BracketedText
import GridCss.Proofs.HostBlocks

/-!
# Selectors and their cells

The rules of a group are those that one cell has compiled for one part of itself, and the group
stands under the selector of the cell with the part behind it. But a part may be a list of
selectors, as in `:hover, :focus`, and then only the first of them is behind the selector of the
cell. A group is thus scoped to its cell exactly if the others name the cell themselves.
-/

namespace GridCss

def Brackets.ofSelectors : Brackets where
  opens c := c == '(' || c == '['
  closes c := c == ')' || c == ']'

namespace Selector

/-- The selectors of a list: what stands between commas outside of brackets. -/
def parts (selector : String) : List String := Brackets.ofSelectors.pieces Rule.isComma selector

def StartsAt (cell : Cell) (selector : String) : Prop :=
  (ofCell ".cell" cell.index "").toList <+: selector.toList

instance decidableStartsAt (cell : Cell) (selector : String) : Decidable (StartsAt cell selector) :=
  inferInstanceAs (Decidable (_ <+: _))

/-- All selectors of a list start with that of one cell. -/
def IsScoped (cell : Cell) (selector : String) : Prop := ∀ part ∈ parts selector, StartsAt cell part

instance decidableIsScoped (cell : Cell) (selector : String) : Decidable (IsScoped cell selector) :=
  inferInstanceAs (Decidable (∀ part ∈ parts selector, StartsAt cell part))

theorem toList_ofCell_append (index : Nat) (suffix : String) :
    (ofCell ".cell" index suffix).toList = (ofCell ".cell" index "").toList ++ suffix.toList := by
  simp [toList_ofCell]

/-- The selector of a cell has no comma, and its parenthesis is closed. -/
theorem chars_ofCell (index : Nat) :
    (∀ c ∈ (ofCell ".cell" index "").toList, Rule.isComma c = false) ∧
      Brackets.ofSelectors.Closed (ofCell ".cell" index "").toList := by
  have hdigit : ∀ c ∈ Nat.toDigits 10 index, c.isDigit = true := fun c hc =>
    Nat.isDigit_of_mem_toDigits (by decide) (by decide) hc
  rw [toList_ofCell]
  constructor
  · rw [List.forall_mem_append, List.forall_mem_append, List.forall_mem_cons]
    refine ⟨⟨by simp [Rule.isComma], fun c hc => ?_⟩, by decide, by simp⟩
    rw [Rule.isComma, beq_eq_false_iff_ne]
    rintro rfl
    exact absurd (hdigit _ hc) (by decide)
  · have hdigits : Brackets.ofSelectors.depthFrom 1 (Nat.toDigits 10 index) = 1 := by
      apply Brackets.depthFrom_of_isBracket
      intro c hc
      have hne : ∀ d : Char, d.isDigit = false → c ≠ d := by
        rintro d hd rfl
        simp [hdigit c hc] at hd
      simp [Brackets.isBracket, Brackets.ofSelectors, hne '(' rfl, hne '[' rfl, hne ')' rfl,
        hne ']' rfl]
    rw [Brackets.Closed, Brackets.depthFrom_append, Brackets.depthFrom_append]
    have hfront : Brackets.ofSelectors.depthFrom 0
        (".cell".toList ++ ":nth-of-type(".toList) = 1 := by decide
    rw [hfront, hdigits]
    rfl

/-- Behind the selector of a cell, a list of selectors goes on as it is. -/
theorem parts_ofCell (index : Nat) (suffix : String) :
    parts (ofCell ".cell" index suffix) =
      (parts suffix).modifyHead (ofCell ".cell" index "" ++ ·) := by
  obtain ⟨hcomma, hclosed⟩ := chars_ofCell index
  obtain ⟨first, rest, hsplit⟩ :=
    Brackets.exists_split Brackets.ofSelectors Rule.isComma 0 suffix.toList
  rw [parts, parts, Brackets.pieces, Brackets.pieces, toList_ofCell_append,
    Brackets.split_append hcomma, hclosed, hsplit]
  simp

theorem isScoped_ofCell_iff (cell : Cell) (suffix : String) :
    IsScoped cell (ofCell ".cell" cell.index suffix) ↔
      ∀ part ∈ (parts suffix).tail, StartsAt cell part := by
  have hne : parts suffix ≠ [] := by simp [parts, Brackets.pieces, Brackets.split_ne_nil]
  obtain ⟨first, rest, hparts⟩ := List.exists_cons_of_ne_nil hne
  have hfirst : StartsAt cell (ofCell ".cell" cell.index "" ++ first) := by
    rw [StartsAt, String.toList_append]
    exact List.prefix_append _ _
  rw [IsScoped, parts_ofCell, hparts, List.modifyHead_cons, List.forall_mem_cons, List.tail_cons]
  exact and_iff_right hfirst

theorem StartsAt.index_eq {cell other : Cell} {selector : String} (h : StartsAt cell selector)
    (h' : StartsAt other selector) : cell.index = other.index := by
  have hlonger : ∀ i j, (ofCell ".cell" i "").toList <+: (ofCell ".cell" j "").toList → i = j := by
    rintro i j ⟨rest, hrest⟩
    have hsame : ofCell ".cell" i (String.ofList rest) = ofCell ".cell" j "" := by
      rw [← String.toList_inj, toList_ofCell_append, String.toList_ofList, hrest]
    exact (ofCell_inj hsame).1
  rcases List.prefix_or_prefix_of_prefix h h' with hle | hle
  · exact hlonger _ _ hle
  · exact (hlonger _ _ hle).symm

theorem resolve_of_isHost {selector : String} (h : isHost (resolve selector) = false) :
    resolve selector = selector := by
  unfold resolve at h ⊢
  split at h
  · split at h
    · simp [isHost, Text.startsWith] at h
    · rfl
  · rfl

end Selector

variable {k : Context}

def Entry.rulesFor (cell : Cell) (suffix : String) : Entry → List Rule
  | .rules cell' (.cell suffix') rs => if cell' = cell ∧ suffix' = suffix then rs else []
  | .rules _ (.host _) _ | .keyframes .. => []

/-- What is filed under the selector of a cell is what the cell has compiled. -/
theorem Entry.filter_cellFilings {grid : Grid} {cell : Cell} (hcell : cell ∈ grid.cells)
    (suffix : String) {log : List Entry} (hlog : ∀ e ∈ log, e.cell ∈ grid.cells) :
    ((log.filterMap (cellFiling? ".cell")).filter
        (·.1 == Selector.ofCell ".cell" cell.index suffix)).flatMap Prod.snd =
      (log.flatMap (rulesFor cell suffix)).map Rule.text := by
  induction log with
  | nil => rfl
  | cons e log ih =>
    rw [List.forall_mem_cons] at hlog
    rw [List.flatMap_cons, List.map_append, ← ih hlog.2]
    cases e with
    | keyframes cell' block =>
      rw [List.filterMap_cons_none rfl]
      rfl
    | rules cell' target rules =>
      cases target with
      | host selector =>
        rw [List.filterMap_cons_none rfl]
        rfl
      | cell suffix' =>
        rw [List.filterMap_cons, cellFiling?, List.filter_cons, rulesFor]
        by_cases hsame : cell' = cell ∧ suffix' = suffix
        · simp [hsame]
        · have hne : Selector.ofCell ".cell" cell'.index suffix' ≠
              Selector.ofCell ".cell" cell.index suffix := by
            intro heq
            obtain ⟨hindex, hsuffix⟩ := Selector.ofCell_inj heq
            exact hsame ⟨grid.eq_of_index_eq hlog.1 hcell hindex, hsuffix⟩
          simp [hsame, hne]

theorem Item.block_of_mem_visitCells {items : List Item} {cells : List Cell} {p : Pass} {v : Visit}
    {b : PseudoBlock} (hv : v ∈ Item.visitCells k items cells p) (hitem : v.item = .pseudo b) :
    b ∈ Item.blocksAll items := by
  induction cells generalizing p with
  | nil => simp [Item.visitCells] at hv
  | cons cell rest ih =>
    simp only [Item.visitCells, List.mem_append] at hv
    rcases hv with hv | hv
    · apply (Item.filterMap_block_visitsAll items p).subset
      exact List.mem_filterMap.mpr ⟨v, hv, by simp [Visit.block?, hitem]⟩
    · exact ih hv

/-- Rules of a cell are for the cell itself, or for the part that a pseudo block names. -/
theorem Item.suffix_of_mem_compileCells {items : List Item} {cells : List Cell} {p : Pass}
    {cell : Cell} {suffix : String} {rules : List Rule}
    (h : .rules cell (.cell suffix) rules ∈ (Item.compileCells k items cells p).1) :
    suffix = "" ∨ ∃ b ∈ Item.blocksAll items, b.selector = suffix := by
  obtain ⟨v, hv, he, -⟩ := Item.mem_compileCells h
  have hleaf := (Item.mem_visitCells hv).2
  obtain ⟨vcell, item, pass⟩ := v
  cases item with
  | conditional name arguments items => simp [Item.isConditional] at hleaf
  | keyframes block => simp [Visit.entries, Item.compile_keyframes] at he
  | comment text => simp [Visit.entries, Item.compile_comment] at he
  | declaration d =>
    simp only [Visit.entries, Item.compile_declaration, List.mem_singleton, Entry.rules.injEq,
      Target.cell.injEq] at he
    exact .inl he.2.1
  | pseudo b =>
    simp only [Visit.entries, Item.compile_pseudo] at he
    cases htarget : Target.ofSelector b.selector with
    | host selector =>
      rw [PseudoBlock.compile_host htarget] at he
      split at he <;> simp at he
    | cell suffix' =>
      simp only [PseudoBlock.compile_cell htarget, List.mem_singleton, Entry.rules.injEq,
        Target.cell.injEq] at he
      obtain ⟨-, rfl, -⟩ := he
      refine .inr ⟨b, Item.block_of_mem_visitCells hv rfl, ?_⟩
      rw [Target.ofSelector_eq] at htarget
      split at htarget
      · cases htarget
      · next hhost =>
        rw [← Target.cell.inj htarget]
        exact (Selector.resolve_of_isHost (by simpa using hhost)).symm

namespace Compilation

variable {registry : Registry} {grid : Grid} {items : List Item} {scope : Scope}

/-- Every group of the cells is for one cell, or for a part of it that a pseudo block names, and has
the rules that this cell has compiled for it. -/
theorem exists_of_mem_cellGroups {g : RuleGroup}
    (hg : g ∈ (run registry grid items scope).1.cellGroups ".cell") :
    ∃ cell ∈ grid.cells, ∃ suffix, g.selector = Selector.ofCell ".cell" cell.index suffix ∧
      (suffix = "" ∨ ∃ b ∈ Item.blocksAll items, b.selector = suffix) ∧
      g.rules = ((run registry grid items scope).1.log.flatMap
        (Entry.rulesFor cell suffix)).map Rule.text := by
  have hlog : ∀ e ∈ (run registry grid items scope).1.log, e.cell ∈ grid.cells := fun e he =>
    Item.cell_of_mem_compileCells he
  have hgroups : (run registry grid items scope).1.cellGroups ".cell" = (RuleSheet.fileAll {}
      ((run registry grid items scope).1.log.filterMap (Entry.cellFiling? ".cell"))).groups :=
    Entry.groups_sheet (by decide) Item.isHost_of_mem_compileCells
  rw [hgroups] at hg
  obtain hg' | ⟨f, hf, hselector⟩ := RuleSheet.mem_groups_fileAll hg
  · exact absurd hg' List.not_mem_nil
  obtain ⟨e, he, hfiling⟩ := List.mem_filterMap.mp hf
  match e with
  | .keyframes .. | .rules _ (.host _) _ => simp [Entry.cellFiling?] at hfiling
  | .rules cell (.cell suffix) rules =>
    have hcell : cell ∈ grid.cells := hlog _ he
    rw [← Option.some.inj hfiling] at hselector
    dsimp only at hselector
    refine ⟨cell, hcell, suffix, hselector, Item.suffix_of_mem_compileCells he, ?_⟩
    rw [RuleSheet.rules_of_mem_fileAll hg, hselector, Entry.filter_cellFilings hcell suffix hlog]

/-- The text of the cells is that of its groups. Each stands under the selector of one cell, with
nothing or the selector of a pseudo block behind it, and has the rules that this cell has compiled
for it. All of its selectors start with that of the cell exactly if those behind the first do, and
what starts with the selector of one cell does not start with that of another. -/
theorem cellGroups_isScoped_iff (registry : Registry) (grid : Grid) (items : List Item)
    (scope : Scope) :
    let compiled := (run registry grid items scope).1
    (compiled.output ".cell").stylesheets.cells =
      "\n".intercalate ((compiled.cellGroups ".cell").map RuleGroup.text) ∧
    ∀ g ∈ compiled.cellGroups ".cell", ∃ cell ∈ grid.cells, ∃ suffix,
      g.selector = Selector.ofCell ".cell" cell.index suffix ∧
      (suffix = "" ∨ ∃ b ∈ Item.blocksAll items, b.selector = suffix) ∧
      g.rules = (compiled.log.flatMap (Entry.rulesFor cell suffix)).map Rule.text ∧
      (Selector.IsScoped cell g.selector ↔
        ∀ part ∈ (Selector.parts suffix).tail, Selector.StartsAt cell part) ∧
      ∀ part, Selector.StartsAt cell part → ∀ other ∈ grid.cells, other ≠ cell →
        ¬ Selector.StartsAt other part := by
  intro compiled
  refine ⟨cells_output compiled ".cell", fun g hg => ?_⟩
  obtain ⟨cell, hcell, suffix, hselector, hsuffix, hrules⟩ := exists_of_mem_cellGroups hg
  refine ⟨cell, hcell, suffix, hselector, hsuffix, hrules, ?_, ?_⟩
  · rw [hselector]
    exact Selector.isScoped_ofCell_iff cell suffix
  · intro part hpart other hother hne hpart'
    exact hne (grid.eq_of_index_eq hother hcell (hpart'.index_eq hpart))

/-- A comma in parentheses starts no selector, so that the group is scoped to its cell. -/
theorem cellGroups_isScoped_iff_nested :
    let items : List Item := [.pseudo ⟨0, ":is(a,b)", [⟨"color", [.text "red"]⟩]⟩]
    let grid := Grid.ofExtents 1 2
    let compiled := (run Registry.builtin grid items ⟨{}, Words.ofSeed 0⟩).1
    let g : RuleGroup := ⟨".cell:nth-of-type(2):is(a,b)", ["color: red;"]⟩
    g ∈ compiled.cellGroups ".cell" ∧
      ∃ cell ∈ grid.cells, cell.index = 2 ∧ Selector.IsScoped cell g.selector := by
  intro items grid compiled g
  have hg : g ∈ compiled.cellGroups ".cell" := by decide +kernel
  obtain ⟨cell, hcell, suffix, hselector, -, -, hscoped, -⟩ :=
    (cellGroups_isScoped_iff Registry.builtin grid items ⟨{}, Words.ofSeed 0⟩).2 g hg
  have hg' : g.selector = Selector.ofCell ".cell" 2 ":is(a,b)" := by decide
  obtain ⟨hindex, rfl⟩ := Selector.ofCell_inj (hselector.symm.trans hg')
  exact ⟨hg, cell, hcell, hindex, hscoped.mpr (by
    have htail : (Selector.parts ":is(a,b)").tail = [] := by decide
    simp [htail])⟩

/-- Two selectors in one block: the second stands alone and belongs to no cell. -/
theorem cellGroups_not_isScoped :
    let items : List Item := [.pseudo ⟨0, ":hover,:focus", [⟨"color", [.text "red"]⟩]⟩]
    let grid := Grid.ofExtents 1 2
    let compiled := (run Registry.builtin grid items ⟨{}, Words.ofSeed 0⟩).1
    parse ":hover, :focus \x7b color: red \x7d" = .ok items ∧
    (compiled.cellGroups ".cell").map RuleGroup.selector =
      [".cell:nth-of-type(1):hover,:focus", ".cell:nth-of-type(2):hover,:focus"] ∧
    ∀ g ∈ compiled.cellGroups ".cell", ∀ cell ∈ grid.cells,
      ¬ Selector.IsScoped cell g.selector := by
  intro items grid compiled
  refine ⟨rfl, ?_, ?_⟩
  · decide +kernel
  · decide +kernel

end Compilation

end GridCss

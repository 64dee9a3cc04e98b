import Mathlib.Data.List.Destutter
import GridCss.Proofs.CellStyles
import GridCss.Proofs.References

/-!
# Copies of keyframes

Where a grid has several cells, rules refer to keyframes by a name with the number of their cell,
and keyframes are copied under such names. The two belong together: every cell with a rule that
refers to keyframes is among the cells for which copies are made, so that whatever is reached is
found under the name by which it is referred to.
-/

namespace GridCss

variable {k : Context} {cell : Cell}

/-- Keeping first occurrences and dropping whole classes can be done in either order. -/
theorem eraseDupsBy_filter {α : Type} {r : α → α → Bool} {p : α → Bool}
    (h : ∀ x y, r x y = true → p x = p y) (l : List α) :
    (l.filter p).eraseDupsBy r = (l.eraseDupsBy r).filter p := by
  match l with
  | [] => rfl
  | x :: rest =>
    have ih := eraseDupsBy_filter h (rest.filter fun y => r y x = false)
    rw [List.filter_filter] at ih
    rw [List.eraseDupsBy_cons]
    cases hx : p x with
    | true =>
      rw [List.filter_cons_of_pos hx, List.filter_cons_of_pos hx, List.eraseDupsBy_cons,
        List.filter_filter, ← ih]
      simp only [Bool.and_comm]
    | false =>
      rw [List.filter_cons_of_neg (by simp [hx]), List.filter_cons_of_neg (by simp [hx]), ← ih]
      -- What is dropped with `x` is not kept by `p` either.
      congr 1
      refine List.filter_congr fun y _ => ?_
      cases hy : r y x with
      | true => simp [h y x hy, hx]
      | false => simp
termination_by l.length
decreasing_by exact Nat.lt_succ_of_le (List.length_filter_le _ rest)

/-- Classes that a function keeps apart and together have their first occurrences at the same
places. -/
theorem eraseDupsBy_map {α β : Type} {r : α → α → Bool} {r' : β → β → Bool} {f : α → β}
    (h : ∀ x y, r' (f x) (f y) = r x y) (l : List α) :
    (l.map f).eraseDupsBy r' = (l.eraseDupsBy r).map f := by
  match l with
  | [] => rfl
  | x :: rest =>
    have ih := eraseDupsBy_map h (rest.filter fun y => r y x = false)
    have hfilter : (rest.map f).filter (fun y => r' y (f x) = false) =
        (rest.filter fun y => r y x = false).map f := by
      rw [List.filter_map]
      simp only [Function.comp_def, h]
    rw [List.map_cons, List.eraseDupsBy_cons, List.eraseDupsBy_cons, List.map_cons, hfilter, ih]
termination_by l.length
decreasing_by exact Nat.lt_succ_of_le (List.length_filter_le _ rest)

theorem pairwise_eraseDups {α : Type} [BEq α] [LawfulBEq α] {r : α → α → Prop} {l : List α}
    (h : l.Pairwise r) : l.eraseDups.Pairwise fun x y => r x y ∧ x ≠ y := by
  match l with
  | [] => exact .nil
  | x :: rest =>
    rw [List.pairwise_cons] at h
    rw [List.eraseDups_cons, List.pairwise_cons]
    refine ⟨fun y hy => ?_, pairwise_eraseDups (h.2.filter _)⟩
    obtain ⟨hmem, hne⟩ := List.mem_filter.mp (List.mem_eraseDups.mp hy)
    exact ⟨h.1 y hmem, fun heq => by simp [heq] at hne⟩
termination_by l.length
decreasing_by exact Nat.lt_succ_of_le (List.length_filter_le _ rest)

/-- In a list that is sorted by a key, first occurrences are found by looking at the element
before. -/
theorem eraseDups_eq_destutter {α : Type} [DecidableEq α] {key : α → Nat} {l : List α}
    (hsorted : l.Pairwise fun x y => key x ≤ key y)
    (hkey : ∀ x ∈ l, ∀ y ∈ l, key x = key y → x = y) : l.eraseDups = l.destutter (· ≠ ·) := by
  cases l with
  | nil => rfl
  | cons x rest =>
    rw [List.destutter_cons']
    induction rest generalizing x with
    | nil => rfl
    | cons y rest ih =>
      have hrest := List.pairwise_cons.mp hsorted
      have hkey' : ∀ a ∈ y :: rest, ∀ b ∈ y :: rest, key a = key b → a = b := fun a ha b hb =>
        hkey a (List.mem_cons_of_mem _ ha) b (List.mem_cons_of_mem _ hb)
      by_cases hxy : x = y
      · subst hxy
        have hsame : (x :: x :: rest).eraseDups = (x :: rest).eraseDups := by
          simp [List.eraseDups_cons]
        rw [List.destutter'_cons_neg _ (by simp), hsame]
        exact ih x hrest.2 hkey'
      · -- From `y` on, all keys are larger than that of `x`.
        have hne : ∀ z ∈ y :: rest, z ≠ x := by
          intro z hz hzx
          have hx : key x ≤ key y := hrest.1 y List.mem_cons_self
          have hy : key y ≤ key z := by
            rcases List.mem_cons.mp hz with rfl | hz
            · exact le_refl _
            · exact (List.pairwise_cons.mp hrest.2).1 z hz
          rw [hzx] at hy
          exact hxy
            (hkey x List.mem_cons_self y (List.mem_cons_of_mem _ List.mem_cons_self) (by omega))
        rw [List.destutter'_cons_pos _ hxy, List.eraseDups_cons, List.filter_eq_self.mpr]
        · rw [ih y hrest.2 hkey']
        · intro z hz
          simpa using hne z hz

theorem Declaration.compileAll_cons (d : Declaration) (ds : List Declaration) (scope : Scope) :
    (Declaration.compileAll k cell (d :: ds) scope).1 =
      (d.compile k cell scope).1 ::
        (Declaration.compileAll k cell ds (d.compile k cell scope).2).1 := rfl

theorem KeyframeStep.compileAll_eq_mapM (steps : List KeyframeStep) :
    KeyframeStep.compileAll k cell steps = steps.mapM fun step => do
      let rules ← step.declarations.mapM (Declaration.compile k cell)
      return (step.selector, rules) := by
  induction steps with
  | nil => rfl
  | cons step rest ih =>
    rw [KeyframeStep.compileAll, ih, Declaration.compileAll_eq_mapM, List.mapM_cons]
    simp only [bind_assoc, pure_bind]

theorem Declaration.property_compile (d : Declaration) (scope : Scope) :
    (d.compile k cell scope).1.property = d.property := rfl

theorem Declaration.text_compile (d : Declaration) (scope : Scope) :
    (d.compile k cell scope).1.text =
      Rule.write d.property (Node.evalAll k.registry cell d.value scope).1
        (if k.renames then some cell.index else none) k.declared := rfl

theorem Declaration.any_compileAll (p : String → Bool) (ds : List Declaration) (scope : Scope) :
    (Declaration.compileAll k cell ds scope).1.any (p ·.property) = ds.any (p ·.property) := by
  induction ds generalizing scope with
  | nil => rfl
  | cons d ds ih =>
    rw [Declaration.compileAll_cons, List.any_cons, List.any_cons, ih, Declaration.property_compile]

theorem Declaration.mem_compileAll {ds : List Declaration} {scope : Scope} {rule : Rule}
    (h : rule ∈ (Declaration.compileAll k cell ds scope).1) :
    ∃ d ∈ ds, ∃ scope', rule = (d.compile k cell scope').1 := by
  induction ds generalizing scope with
  | nil => exact absurd h List.not_mem_nil
  | cons d ds ih =>
    rw [Declaration.compileAll_cons] at h
    rcases List.mem_cons.mp h with rfl | h
    · exact ⟨d, List.mem_cons_self, scope, rfl⟩
    · obtain ⟨d', hd', hrule⟩ := ih h
      exact ⟨d', List.mem_cons_of_mem _ hd', hrule⟩

namespace Visit

/-- The declarations that a visit compiles, after others. Those of a host block are compiled at its
first visit only. -/
def declarations (before : List Visit) (v : Visit) : List Declaration :=
  match v.item with
  | .declaration d => [d]
  | .pseudo b => if v.host?.isSome && before.any (·.host? == v.host?) then [] else b.declarations
  | _ => []

/-- The keyframes that a visit reaches. -/
def keyframes? (v : Visit) : Option (Cell × Keyframes) :=
  match v.item with
  | .keyframes block => some (v.cell, block)
  | _ => none

/-- What a visit leaves after others: the rules of its declarations, or keyframes, or nothing. -/
def Leaves (k : Context) (before : List Visit) (v : Visit) : Prop :=
  v.keyframes? = none ∧ (∃ target scope, v.entries k =
    [.rules v.cell target (Declaration.compileAll k v.cell (v.declarations before) scope).1]) ∨
  v.declarations before = [] ∧
    v.entries k = (v.keyframes?.map fun x => Entry.keyframes x.1 x.2).toList

theorem leaves_of_hosts {before : List Visit} {v : Visit} (hleaf : v.item.isConditional = false)
    (hhosts : ∀ id, id ∈ v.pass.hosts ↔ ∃ u ∈ before, u.host? = some id) : v.Leaves k before := by
  obtain ⟨cell, item, p⟩ := v
  cases item with
  | conditional name arguments items => simp [Item.isConditional] at hleaf
  | declaration d =>
    refine .inl ⟨rfl, .cell "", p.scope, ?_⟩
    simp only [entries, Item.compile_declaration, declarations]
    rfl
  | keyframes block => exact .inr ⟨rfl, by simp [entries, Item.compile_keyframes, keyframes?]⟩
  | comment text => exact .inr ⟨rfl, by simp [entries, Item.compile_comment, keyframes?]⟩
  | pseudo b =>
    cases htarget : Target.ofSelector b.selector with
    | cell suffix =>
      refine .inl ⟨rfl, .cell suffix, p.scope, ?_⟩
      simp [entries, Item.compile_pseudo, PseudoBlock.compile_cell htarget, declarations, host?,
        htarget]
    | host selector =>
      have hhost : host? ⟨cell, .pseudo b, p⟩ = some b.id := by simp [host?, htarget]
      have hseen : before.any (·.host? == some b.id) = true ↔ b.id ∈ p.hosts := by
        simp [hhosts b.id]
      by_cases hid : b.id ∈ p.hosts
      · refine .inr ⟨?_, ?_⟩
        · simp [declarations, hhost, hseen.mpr hid]
        · simp [entries, Item.compile_pseudo, PseudoBlock.compile_host htarget, hid, keyframes?]
      · refine .inl ⟨rfl, .host selector, p.scope, ?_⟩
        have hnew : before.any (·.host? == some b.id) = false := by
          simpa only [Bool.not_eq_true] using mt hseen.mp hid
        simp [entries, Item.compile_pseudo, PseudoBlock.compile_host htarget, hid, declarations,
          hhost, hnew]

/-- In the course of visits, a cell compiles a declaration. -/
def Compiled (visits : List Visit) (cell : Cell) (d : Declaration) : Prop :=
  ∃ before v after, visits = before ++ v :: after ∧ v.cell = cell ∧ d ∈ v.declarations before

/-- In the course of visits, a cell compiles a declaration that may refer to keyframes. -/
def Animated (visits : List Visit) (cell : Cell) : Prop :=
  ∃ d, Compiled visits cell d ∧ Property.isAnimation d.property = true

/-- The first keyframes of every name that visits reach, with the cells that reach them. -/
def firstKeyframes : List Visit → List (Cell × Keyframes)
  | [] => []
  | v :: rest =>
    match v.item with
    | .keyframes block =>
      (v.cell, block) :: (firstKeyframes rest).filter (·.2.name != block.name)
    | _ => firstKeyframes rest

end Visit

theorem Entry.animated?_eq_some {e : Entry} :
    e.animated? = some cell ↔ ∃ target rules, e = .rules cell target rules ∧
      ∃ rule ∈ rules, Property.isAnimation rule.property = true := by
  cases e with
  | keyframes cell' block => simp [Entry.animated?]
  | rules cell' target rules => simp [Entry.animated?, and_comm]

section

variable (k) (items : List Item) (cells : List Cell) (scope : Scope)

theorem Item.leaves_visitCells {before after : List Visit} {v : Visit}
    (h : Item.visitCells k items cells { scope := scope } = before ++ v :: after) :
    v.Leaves k before := by
  have hv : v ∈ Item.visitCells k items cells { scope := scope } := by simp [h]
  have hhosts := (Item.visitCells_tracked items cells { scope := scope }).found before v after h
  refine Visit.leaves_of_hosts (Item.mem_visitCells hv).2 fun id => ?_
  simpa using hhosts id

/-- Every rule in the log comes from a declaration that its cell has compiled. -/
theorem Item.compiled_of_mem_log {target : Target} {rules : List Rule} {rule : Rule}
    (h : .rules cell target rules ∈ (Item.compileCells k items cells { scope := scope }).1)
    (hrule : rule ∈ rules) :
    ∃ d, Visit.Compiled (Item.visitCells k items cells { scope := scope }) cell d ∧
      ∃ scope', rule = (d.compile k cell scope').1 := by
  rw [Item.compileCells_eq_visits, List.mem_flatMap] at h
  obtain ⟨v, hv, he⟩ := h
  obtain ⟨before, after, hsplit⟩ := List.append_of_mem hv
  rcases Item.leaves_visitCells k items cells scope hsplit with
    ⟨-, target', scope', hentries⟩ | ⟨-, hentries⟩
  · rw [hentries, List.mem_singleton] at he
    obtain ⟨rfl, -, rfl⟩ := Entry.rules.inj he
    obtain ⟨d, hd, hcompile⟩ := Declaration.mem_compileAll hrule
    exact ⟨d, ⟨before, v, after, hsplit, rfl, hd⟩, hcompile⟩
  · rw [hentries] at he
    cases hv : v.keyframes? <;> simp [hv] at he

/-- Every declaration that a cell has compiled has left a rule in the log. -/
theorem Item.mem_log_of_compiled {d : Declaration}
    (h : Visit.Compiled (Item.visitCells k items cells { scope := scope }) cell d) :
    ∃ target rules,
      .rules cell target rules ∈ (Item.compileCells k items cells { scope := scope }).1 ∧
      ∃ rule ∈ rules, rule.property = d.property := by
  obtain ⟨before, v, after, hsplit, rfl, hd⟩ := h
  rcases Item.leaves_visitCells k items cells scope hsplit with
    ⟨-, target, scope', hentries⟩ | ⟨hnone, -⟩
  · refine ⟨target, (Declaration.compileAll k v.cell (v.declarations before) scope').1, ?_, ?_⟩
    · rw [Item.compileCells_eq_visits, hsplit]
      simp [hentries]
    · have hany :=
        @Declaration.any_compileAll k v.cell (· == d.property) (v.declarations before) scope'
      rw [List.any_eq_true.mpr ⟨d, hd, beq_self_eq_true d.property⟩] at hany
      simpa using hany
  · rw [hnone] at hd
    exact absurd hd List.not_mem_nil

theorem Item.mem_animatedCells :
    cell ∈ Entry.animatedCells (Item.compileCells k items cells { scope := scope }).1 ↔
      Visit.Animated (Item.visitCells k items cells { scope := scope }) cell := by
  rw [Entry.animatedCells, List.mem_eraseDups, List.mem_filterMap]
  constructor
  · rintro ⟨e, he, hanimated⟩
    obtain ⟨target, rules, rfl, rule, hrule, hproperty⟩ := Entry.animated?_eq_some.mp hanimated
    obtain ⟨d, hd, scope', rfl⟩ := Item.compiled_of_mem_log k items cells scope he hrule
    exact ⟨d, hd, hproperty⟩
  · rintro ⟨d, hd, hproperty⟩
    obtain ⟨target, rules, he, rule, hrule, heq⟩ := Item.mem_log_of_compiled k items cells scope hd
    exact ⟨_, he, Entry.animated?_eq_some.mpr ⟨target, rules, rfl, rule, hrule, heq ▸ hproperty⟩⟩

/-- The keyframes in the log are those that are visited. -/
theorem Item.filterMap_keyframes_log :
    (Item.compileCells k items cells { scope := scope }).1.filterMap Entry.keyframes? =
      (Item.visitCells k items cells { scope := scope }).filterMap Visit.keyframes? := by
  rw [Item.compileCells_eq_visits, List.filterMap_flatMap, List.filterMap_eq_flatMap_toList]
  refine List.flatMap_congr fun v hv => ?_
  obtain ⟨before, after, hsplit⟩ := List.append_of_mem hv
  rcases Item.leaves_visitCells k items cells scope hsplit with
    ⟨hnone, target, scope', hentries⟩ | ⟨-, hentries⟩
  · simp [hentries, hnone, Entry.keyframes?, List.filterMap_cons]
  · rw [hentries]
    cases v.keyframes? <;> simp [Entry.keyframes?]

theorem Item.firstKeyframes_log :
    Entry.firstKeyframes (Item.compileCells k items cells { scope := scope }).1 =
      Visit.firstKeyframes (Item.visitCells k items cells { scope := scope }) := by
  rw [Entry.firstKeyframes, Item.filterMap_keyframes_log]
  generalize Item.visitCells k items cells { scope := scope } = visits
  induction visits with
  | nil => rfl
  | cons v rest ih =>
    obtain ⟨cell, item, p⟩ := v
    cases item with
    | keyframes block =>
      -- The later blocks of this name are dropped first in the log, last in the visits.
      have hfilter := eraseDupsBy_filter (r := fun x y => x.2.name == y.2.name)
        (p := fun x : Cell × Keyframes => x.2.name != block.name)
        (by simp +contextual [bne]) (rest.filterMap Visit.keyframes?)
      simp only [Visit.keyframes?, List.filterMap_cons, Visit.firstKeyframes, ← ih, ← hfilter]
      rw [List.eraseDupsBy_cons]
      congr 2
      refine List.filter_congr fun x _ => ?_
      cases hname : x.2.name == block.name <;> simp [bne, hname]
    | declaration | pseudo | conditional | comment => exact ih

end

/-- Log entries follow the order of the cells. -/
theorem Item.compileCells_pairwise (items : List Item) {cells : List Cell}
    (h : cells.Pairwise fun a b => a.index < b.index) (p : Pass) :
    (Item.compileCells k items cells p).1.Pairwise fun e e' => e.cell.index ≤ e'.cell.index := by
  induction cells generalizing p with
  | nil => exact .nil
  | cons cell rest ih =>
    rw [List.pairwise_cons] at h
    rw [Item.compileCells_cons, List.pairwise_append]
    refine ⟨List.pairwise_of_forall_mem_list fun e he e' he' => ?_, ih h.2 _, fun e he e' he' => ?_⟩
    · rw [Item.cell_of_mem_compileAll he, Item.cell_of_mem_compileAll he']
    · rw [Item.cell_of_mem_compileAll he]
      exact Nat.le_of_lt (h.1 _ (Item.cell_of_mem_compileCells he'))

theorem Entry.cell_of_animated? {e : Entry} (h : e.animated? = some cell) : e.cell = cell := by
  obtain ⟨target, rules, rfl, -⟩ := Entry.animated?_eq_some.mp h
  rfl

section

variable (k) (items : List Item) (grid : Grid) (p : Pass)

theorem Item.filterMap_animated_pairwise :
    ((Item.compileCells k items grid.cells p).1.filterMap Entry.animated?).Pairwise fun a b =>
      a.index ≤ b.index := by
  rw [List.pairwise_filterMap]
  refine (Item.compileCells_pairwise items grid.cells_pairwise p).imp ?_
  intro e e' hle a ha b hb
  rwa [Entry.cell_of_animated? ha, Entry.cell_of_animated? hb] at hle

theorem Item.eq_of_animated_index :
    ∀ a ∈ (Item.compileCells k items grid.cells p).1.filterMap Entry.animated?,
      ∀ b ∈ (Item.compileCells k items grid.cells p).1.filterMap Entry.animated?,
        a.index = b.index → a = b := by
  have hmem : ∀ a ∈ (Item.compileCells k items grid.cells p).1.filterMap Entry.animated?,
      a ∈ grid.cells := by
    intro a ha
    obtain ⟨e, he, hanimated⟩ := List.mem_filterMap.mp ha
    rw [← Entry.cell_of_animated? hanimated]
    exact Item.cell_of_mem_compileCells he
  exact fun a ha b hb => grid.eq_of_index_eq (hmem a ha) (hmem b hb)

/-- It suffices to compare a cell that animates something with the one noted last. -/
theorem Item.animatedCells_eq_destutter :
    Entry.animatedCells (Item.compileCells k items grid.cells p).1 =
      ((Item.compileCells k items grid.cells p).1.filterMap Entry.animated?).destutter (· ≠ ·) :=
  eraseDups_eq_destutter (Item.filterMap_animated_pairwise k items grid p)
    (Item.eq_of_animated_index k items grid p)

/-- The cells that animate something come in increasing order. -/
theorem Item.animatedCells_pairwise :
    (Entry.animatedCells (Item.compileCells k items grid.cells p).1).Pairwise fun a b =>
      a.index < b.index := by
  refine (pairwise_eraseDups (Item.filterMap_animated_pairwise k items grid p)).imp_of_mem ?_
  intro a b ha hb ⟨hle, hne⟩
  refine lt_of_le_of_ne hle fun heq => hne ?_
  exact Item.eq_of_animated_index k items grid p a (List.mem_eraseDups.mp ha) b
    (List.mem_eraseDups.mp hb) heq

end

/-- Keyframes that are compiled for a cell under a name of their own. -/
structure KeyframesCopy where
  name : String
  cell : Cell
  block : Keyframes

namespace KeyframesCopy

def compile (k : Context) (c : KeyframesCopy) : StateM Scope KeyframesRules := do
  let steps ← c.block.steps.mapM fun step => do
    let rules ← step.declarations.mapM (Declaration.compile k c.cell)
    return (step.selector, rules)
  return ⟨c.name, steps⟩

/-- A copy has the steps of its block with their selectors, and one rule for each declaration. -/
def Yields (k : Context) (c : KeyframesCopy) (rules : KeyframesRules) : Prop :=
  rules.name = c.name ∧
    List.Forall₂ (fun step compiled => compiled.1 = step.selector ∧
      List.Forall₂ (fun d rule => ∃ scope, rule = (d.compile k c.cell scope).1)
        step.declarations compiled.2) c.block.steps rules.steps

theorem yields_compile (c : KeyframesCopy) (scope : Scope) : c.Yields k (c.compile k scope).1 := by
  refine ⟨rfl, (forall₂_mapM _ c.block.steps scope).imp fun step compiled h => ?_⟩
  obtain ⟨scope', rfl⟩ := h
  exact ⟨rfl, forall₂_mapM _ step.declarations scope'⟩

theorem compile_eq (c : KeyframesCopy) : c.compile k = c.block.compileAs k c.name c.cell := by
  rw [compile, Keyframes.compileAs, KeyframeStep.compileAll_eq_mapM]

/-- A block under its name for the cell that reached it and, where cells have copies, under a name
for each of them. -/
def ofBlock (renames : Bool) (animated : List Cell) (x : Cell × Keyframes) : List KeyframesCopy :=
  ⟨x.2.name, x.1, x.2⟩ ::
    (if renames then animated else []).map fun cell =>
      ⟨Rule.cellName x.2.name cell.index, cell, x.2⟩

theorem compileCopies_eq_mapM (block : Keyframes) (cells : List Cell) :
    block.compileCopies k cells =
      (cells.map fun cell => ⟨Rule.cellName block.name cell.index, cell, block⟩).mapM
        (compile k) := by
  induction cells with
  | nil => rfl
  | cons cell rest ih =>
    rw [Keyframes.compileCopies, ih, List.map_cons, List.mapM_cons, compile_eq]

/-- Keyframes are compiled block by block, each followed by its copies. -/
theorem compileAll_eq_mapM (animated : List Cell) (blocks : List (Cell × Keyframes)) :
    Keyframes.compileAll k animated blocks =
      (blocks.flatMap (ofBlock k.renames animated)).mapM (compile k) := by
  induction blocks with
  | nil => rfl
  | cons b rest ih =>
    rw [Keyframes.compileAll, ih, compileCopies_eq_mapM, List.flatMap_cons, List.mapM_append,
      ofBlock, List.mapM_cons, compile_eq]
    simp only [bind_assoc, pure_bind]

/-- Copies are compiled under their names. -/
theorem map_name_mapM (copies : List KeyframesCopy) (scope : Scope) :
    (copies.mapM (compile k) scope).1.map KeyframesRules.name = copies.map name := by
  induction copies generalizing scope with
  | nil => rfl
  | cons c rest ih =>
    rw [List.mapM_cons, List.map_cons, ← ih (compile k c scope).2]
    rfl

/-- Where cells have copies, there is one of every block for every cell. -/
theorem cellName_mem {animated : List Cell} {blocks : List (Cell × Keyframes)} {name : String}
    (hname : name ∈ blocks.map (·.2.name)) (hcell : cell ∈ animated) :
    Rule.cellName name cell.index ∈
      (blocks.flatMap (ofBlock true animated)).map KeyframesCopy.name := by
  obtain ⟨b, hb, rfl⟩ := List.mem_map.mp hname
  refine List.mem_map.mpr ⟨⟨Rule.cellName b.2.name cell.index, cell, b.2⟩, ?_, rfl⟩
  refine List.mem_flatMap.mpr ⟨b, hb, List.mem_cons_of_mem _ ?_⟩
  exact List.mem_map_of_mem hcell

end KeyframesCopy

/-- Every rule in a sheet was left in the log, under the selector of its group. -/
theorem Entry.mem_rules_sheet {cellSelector : String} {log : List Entry} {g : RuleGroup}
    (hg : g ∈ (Entry.sheet cellSelector log).groups) {text : String} (ht : text ∈ g.rules) :
    ∃ cell target rules, .rules cell target rules ∈ log ∧
      g.selector = target.selector cellSelector cell ∧ ∃ rule ∈ rules, rule.text = text := by
  rw [Entry.sheet_eq_fileAll] at hg
  rcases RuleSheet.mem_rules_fileAll hg ht with ⟨g', hg', -⟩ | ⟨f, hf, hselector, htext⟩
  · exact absurd hg' List.not_mem_nil
  · obtain ⟨e, he, hfiling⟩ := List.mem_filterMap.mp hf
    cases e with
    | keyframes cell block => simp [Entry.filing?] at hfiling
    | rules cell target rules =>
      rw [← Option.some.inj hfiling] at hselector htext
      exact ⟨cell, target, rules, he, hselector, List.mem_map.mp htext⟩

namespace Compilation

section

variable (registry : Registry) (grid : Grid) (items : List Item) (scope : Scope)

theorem renames_context : (context registry grid items).renames = decide (1 < grid.count) := rfl

theorem keyframes_run :
    (run registry grid items scope).1.keyframes =
      (((Visit.firstKeyframes (Item.visitCells (context registry grid items) items grid.cells
          { scope := scope })).flatMap
        (KeyframesCopy.ofBlock (1 < grid.count) (Entry.animatedCells
          (run registry grid items scope).1.log))).mapM
        (KeyframesCopy.compile (context registry grid items))
        (Item.compileCells (context registry grid items) items grid.cells
          { scope := scope }).2.scope).1 := by
  simp only [run_eq, Item.firstKeyframes_log, KeyframesCopy.compileAll_eq_mapM]
  rfl

theorem yields_keyframes :
    List.Forall₂ (KeyframesCopy.Yields (context registry grid items))
      ((Visit.firstKeyframes (Item.visitCells (context registry grid items) items grid.cells
          { scope := scope })).flatMap
        (KeyframesCopy.ofBlock (1 < grid.count) (Entry.animatedCells
          (run registry grid items scope).1.log)))
      (run registry grid items scope).1.keyframes := by
  rw [keyframes_run]
  refine (forall₂_mapM _ _ _).imp fun c rules h => ?_
  obtain ⟨scope', rfl⟩ := h
  exact c.yields_compile scope'

end

/-- Keyframes and the references to them belong together. The keyframes of a compilation are the
first of every name that is reached, each followed, if there are several cells, by copies for the
cells that animate something, in increasing order. Rules refer to keyframes as they are declared if
there is one cell, and by the names for their own cell otherwise; and whatever is reached has a copy
of the name by which it is referred to. -/
theorem references_have_copies (registry : Registry) (grid : Grid) (items : List Item)
    (scope : Scope) (cellSelector : String) :
    let k := context registry grid items
    let visits := Item.visitCells k items grid.cells { scope := scope }
    let reached := Visit.firstKeyframes visits
    let compiled := (run registry grid items scope).1
    ∃ animated : List Cell,
      -- the cells that animate something
      animated = (compiled.log.filterMap Entry.animated?).destutter (· ≠ ·) ∧
      animated.Pairwise (fun a b => a.index < b.index) ∧
      (∀ cell, cell ∈ animated ↔ Visit.Animated visits cell) ∧
      -- the keyframes and their copies
      compiled.keyframes =
        ((reached.flatMap (KeyframesCopy.ofBlock (1 < grid.count) animated)).mapM
          (KeyframesCopy.compile k)
          (Item.compileCells k items grid.cells { scope := scope }).2.scope).1 ∧
      List.Forall₂ (KeyframesCopy.Yields k)
        (reached.flatMap (KeyframesCopy.ofBlock (1 < grid.count) animated)) compiled.keyframes ∧
      (compiled.output cellSelector).stylesheets.keyframes =
        "\n".intercalate (compiled.keyframes.map KeyframesRules.text) ∧
      -- the rules, and where they come from
      (∀ group ∈ (Entry.sheet cellSelector compiled.log).groups, ∀ text ∈ group.rules,
        ∃ cell target rules, .rules cell target rules ∈ compiled.log ∧
          group.selector = target.selector cellSelector cell ∧ ∃ rule ∈ rules, rule.text = text) ∧
      ∀ cell target rules, .rules cell target rules ∈ compiled.log → ∀ rule ∈ rules,
        ∃ d, Visit.Compiled visits cell d ∧ rule.property = d.property ∧
          ∃ scope', let value := (Node.evalAll registry cell d.value scope').1
            (Property.isAnimation rule.property → ¬ 1 < grid.count →
              rule.text = Rule.plain rule.property value) ∧
            (1 < grid.count → Rule.Numbered k.declared cell.index rule.property value rule.text ∧
              ∀ name ∈ reached.map (·.2.name), Rule.RefersTo k.declared rule.property value name →
                Rule.cellName name cell.index ∈ compiled.keyframes.map KeyframesRules.name) := by
  intro k visits reached compiled
  have hanimated : ∀ cell, cell ∈ Entry.animatedCells compiled.log ↔ Visit.Animated visits cell :=
    fun cell => Item.mem_animatedCells k items grid.cells scope
  refine ⟨Entry.animatedCells compiled.log, Item.animatedCells_eq_destutter k items grid _,
    Item.animatedCells_pairwise k items grid _, hanimated,
    keyframes_run registry grid items scope, yields_keyframes registry grid items scope, rfl,
    fun group hgroup text htext => Entry.mem_rules_sheet hgroup htext, ?_⟩
  intro cell target rules hlog rule hrule
  obtain ⟨d, hd, scope', rfl⟩ := Item.compiled_of_mem_log k items grid.cells scope hlog hrule
  refine ⟨d, hd, rfl, scope', ?_, ?_⟩
  · intro hproperty hone
    rw [Declaration.text_compile, renames_context, decide_eq_false hone]
    exact Rule.write_none hproperty _ _
  · intro hmany
    rw [Declaration.text_compile, renames_context, decide_eq_true hmany]
    refine ⟨Rule.numbered_write _ _ _ _, fun name hname hrefers => ?_⟩
    have hcell := (hanimated cell).mpr ⟨d, hd, hrefers.isAnimation⟩
    rw [keyframes_run, KeyframesCopy.map_name_mapM, decide_eq_true hmany]
    exact KeyframesCopy.cellName_mem hname hcell

/-- Two cells that animate something: a block of two steps has a copy for each, with its own rules.
-/
theorem references_have_copies_two :
    let block : Keyframes :=
      ⟨"a", [⟨"from", [⟨"order", [.call "index" []]⟩]⟩, ⟨"to", [⟨"left", [.text "1px"]⟩]⟩]⟩
    let items : List Item := [.declaration ⟨"animation", [.text "a 1s"]⟩, .keyframes block]
    let grid := Grid.ofExtents 1 2
    let scope : Scope := ⟨{}, Words.ofSeed 0⟩
    let compiled := (run Registry.builtin grid items scope).1
    List.Forall₂ (KeyframesCopy.Yields (context Registry.builtin grid items))
      [⟨"a", ⟨1, 1, 1⟩, block⟩, ⟨Rule.cellName "a" 1, ⟨1, 1, 1⟩, block⟩,
        ⟨Rule.cellName "a" 2, ⟨1, 2, 2⟩, block⟩] compiled.keyframes ∧
    compiled.keyframes.map (fun k => (k.name, k.allRules.map Rule.text)) =
      [("a", ["order: 1;", "left: 1px;"]), ("a-1", ["order: 1;", "left: 1px;"]),
        ("a-2", ["order: 2;", "left: 1px;"])] := by
  intro block items grid scope compiled
  obtain ⟨animated, hanimated, -, -, -, hyields, -⟩ :=
    references_have_copies Registry.builtin grid items scope ".cell"
  have hcells : animated = grid.cells := by
    rw [hanimated]
    decide +kernel
  have hreached : Visit.firstKeyframes (Item.visitCells (context Registry.builtin grid items) items
      grid.cells { scope := scope }) = [(⟨1, 1, 1⟩, block)] := rfl
  rw [hcells, hreached] at hyields
  exact ⟨hyields, by decide +kernel⟩

end Compilation

end GridCss

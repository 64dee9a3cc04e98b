import GridCss.Proofs.CoupledRuns

/-!
# Visits

A pass visits the items that stand outside all conditionals or in conditionals that hold for the
cell, cell by cell and in document order. The log of a pass is what its visits leave, one after the
other, so that whatever holds of single items carries over to whole logs.
-/

namespace GridCss

/-- An item that is reached by a cell, and the state in which the pass reaches it. Conditionals are
passed through; what is visited are the items in them. -/
structure Visit where
  cell : Cell
  item : Item
  pass : Pass

/-- What a visit leaves in the log. -/
def Visit.entries (k : Context) (v : Visit) : List Entry := (v.item.compile k v.cell v.pass).1

mutual

def Item.visits (k : Context) (cell : Cell) : Item → Pass → List Visit
  | .declaration d, p => [⟨cell, .declaration d, p⟩]
  | .pseudo b, p => [⟨cell, .pseudo b, p⟩]
  | .conditional name arguments items, p =>
    if (Pass.inScope (holds k cell name arguments) p).1 then
      Item.visitsAll k cell items (Pass.inScope (holds k cell name arguments) p).2
    else []
  | .keyframes block, p => [⟨cell, .keyframes block, p⟩]
  | .comment text, p => [⟨cell, .comment text, p⟩]

def Item.visitsAll (k : Context) (cell : Cell) : List Item → Pass → List Visit
  | [], _ => []
  | item :: rest, p =>
    item.visits k cell p ++ Item.visitsAll k cell rest (item.compile k cell p).2

end

/-- The visits of all cells, in order. -/
def Item.visitCells (k : Context) (items : List Item) : List Cell → Pass → List Visit
  | [], _ => []
  | cell :: rest, p =>
    Item.visitsAll k cell items p ++
      Item.visitCells k items rest (Item.compileAll k cell items p).2

def Item.isConditional : Item → Bool
  | .conditional .. => true
  | _ => false

def Entry.cell : Entry → Cell
  | .rules cell _ _ | .keyframes cell _ => cell

variable {k : Context} {cell : Cell}

theorem Item.visits_of_leaf {item : Item} (h : item.isConditional = false) (p : Pass) :
    item.visits k cell p = [⟨cell, item, p⟩] := by
  cases item with
  | conditional name arguments items => simp [Item.isConditional] at h
  | declaration | pseudo | keyframes | comment => simp only [Item.visits]

/-- Declarations are compiled one after the other, each in the scope that the one before leaves. -/
theorem Declaration.compileAll_eq_mapM (ds : List Declaration) :
    Declaration.compileAll k cell ds = ds.mapM (Declaration.compile k cell) := by
  induction ds with
  | nil => rfl
  | cons d rest ih => rw [Declaration.compileAll, ih, List.mapM_cons]

theorem forall₂_mapM {α β σ : Type} (f : α → StateM σ β) (l : List α) (s : σ) :
    List.Forall₂ (fun a b => ∃ s', b = (f a s').1) l (l.mapM f s).1 := by
  induction l generalizing s with
  | nil => exact .nil
  | cons a rest ih =>
    rw [List.mapM_cons]
    exact .cons ⟨s, rfl⟩ (ih (f a s).2)

theorem Item.compile_declaration (d : Declaration) (p : Pass) :
    (Item.declaration d).compile k cell p =
      ([.rules cell (.cell "") [(d.compile k cell p.scope).1]],
        { p with scope := (d.compile k cell p.scope).2 }) := by
  simp only [Item.compile]
  rfl

theorem Item.compile_pseudo (b : PseudoBlock) (p : Pass) :
    (Item.pseudo b).compile k cell p = b.compile k cell p := by
  simp only [Item.compile]

theorem Item.compile_keyframes (block : Keyframes) (p : Pass) :
    (Item.keyframes block).compile k cell p = ([.keyframes cell block], p) := by
  simp only [Item.compile]
  rfl

theorem Item.compile_comment (text : String) (p : Pass) :
    (Item.comment text).compile k cell p = ([], p) := by
  simp only [Item.compile]
  rfl

theorem PseudoBlock.compile_cell {b : PseudoBlock} {suffix : String}
    (h : Target.ofSelector b.selector = .cell suffix) (p : Pass) :
    b.compile k cell p =
      ([.rules cell (.cell suffix) (Declaration.compileAll k cell b.declarations p.scope).1],
        { p with scope := (Declaration.compileAll k cell b.declarations p.scope).2 }) := by
  unfold PseudoBlock.compile
  rw [h]
  rfl

/-- A host block leaves something in the log at its first visit only. -/
theorem PseudoBlock.compile_host {b : PseudoBlock} {selector : String}
    (h : Target.ofSelector b.selector = .host selector) (p : Pass) :
    b.compile k cell p =
      if b.id ∈ p.hosts then ([], p)
      else
        ([.rules cell (.host selector) (Declaration.compileAll k cell b.declarations p.scope).1],
          { scope := (Declaration.compileAll k cell b.declarations p.scope).2
            hosts := b.id :: p.hosts }) := by
  unfold PseudoBlock.compile
  rw [h]
  by_cases hid : b.id ∈ p.hosts
  · have henter : Pass.enterHost b.id p = (false, p) := by simp [Pass.enterHost, hid]
    simp only [bind, StateT.bind, henter, hid, if_true]
    rfl
  · have henter : Pass.enterHost b.id p = (true, { p with hosts := b.id :: p.hosts }) := by
      simp [Pass.enterHost, hid]
    simp only [bind, StateT.bind, henter, hid, if_false]
    rfl

theorem Target.isHost_of_ofSelector {selector target : String}
    (h : Target.ofSelector selector = .host target) : Selector.isHost target = true := by
  unfold Target.ofSelector at h
  dsimp only at h
  split at h
  · next hhost =>
    rw [← Target.host.inj h]
    exact hhost
  · cases h

theorem Item.compile_conditional (name : String) (arguments : List (List Argument))
    (items : List Item) (p : Pass) :
    (Item.conditional name arguments items).compile k cell p =
      if (Pass.inScope (holds k cell name arguments) p).1 then
        Item.compileAll k cell items (Pass.inScope (holds k cell name arguments) p).2
      else ([], (Pass.inScope (holds k cell name arguments) p).2) := by
  simp only [Item.compile]
  show (if (Pass.inScope (holds k cell name arguments) p).1 then Item.compileAll k cell items
    else pure []) (Pass.inScope (holds k cell name arguments) p).2 = _
  split <;> rfl

theorem Item.compileAll_nil (p : Pass) : Item.compileAll k cell [] p = ([], p) := by
  simp only [Item.compileAll]
  rfl

theorem Item.compileAll_cons (item : Item) (rest : List Item) (p : Pass) :
    Item.compileAll k cell (item :: rest) p =
      ((item.compile k cell p).1 ++ (Item.compileAll k cell rest (item.compile k cell p).2).1,
        (Item.compileAll k cell rest (item.compile k cell p).2).2) := by
  simp only [Item.compileAll]
  rfl

theorem Item.compileCells_cons (items : List Item) (rest : List Cell) (p : Pass) :
    Item.compileCells k items (cell :: rest) p =
      ((Item.compileAll k cell items p).1 ++
          (Item.compileCells k items rest (Item.compileAll k cell items p).2).1,
        (Item.compileCells k items rest (Item.compileAll k cell items p).2).2) := rfl

mutual

theorem Item.compile_eq_visits (item : Item) (p : Pass) :
    (item.compile k cell p).1 = (item.visits k cell p).flatMap (Visit.entries k) := by
  cases item with
  | conditional name arguments items =>
    rw [Item.compile_conditional]
    simp only [Item.visits]
    split
    · exact Item.compileAll_eq_visits items _
    · rfl
  | declaration | pseudo | keyframes | comment =>
    rw [Item.visits_of_leaf rfl, List.flatMap_singleton, Visit.entries]

theorem Item.compileAll_eq_visits (items : List Item) (p : Pass) :
    (Item.compileAll k cell items p).1 =
      (Item.visitsAll k cell items p).flatMap (Visit.entries k) := by
  cases items with
  | nil =>
    rw [Item.compileAll_nil]
    simp [Item.visitsAll]
  | cons item rest =>
    rw [Item.compileAll_cons]
    simp only [Item.visitsAll, List.flatMap_append]
    rw [Item.compile_eq_visits item p, Item.compileAll_eq_visits rest _]

end

/-- The log of a pass is what its visits leave. -/
theorem Item.compileCells_eq_visits (items : List Item) (cells : List Cell) (p : Pass) :
    (Item.compileCells k items cells p).1 =
      (Item.visitCells k items cells p).flatMap (Visit.entries k) := by
  induction cells generalizing p with
  | nil => rfl
  | cons cell rest ih =>
    rw [Item.compileCells_cons]
    simp only [Item.visitCells, List.flatMap_append, ih, Item.compileAll_eq_visits]

mutual

theorem Item.mem_visits {item : Item} {p : Pass} {v : Visit} (hv : v ∈ item.visits k cell p) :
    v.cell = cell ∧ v.item.isConditional = false := by
  cases item with
  | conditional name arguments items =>
    simp only [Item.visits] at hv
    split at hv
    · exact Item.mem_visitsAll hv
    · simp at hv
  | declaration | pseudo | keyframes | comment =>
    rw [Item.visits_of_leaf rfl, List.mem_singleton] at hv
    rw [hv]
    exact ⟨rfl, rfl⟩

theorem Item.mem_visitsAll {items : List Item} {p : Pass} {v : Visit}
    (hv : v ∈ Item.visitsAll k cell items p) : v.cell = cell ∧ v.item.isConditional = false := by
  cases items with
  | nil => simp [Item.visitsAll] at hv
  | cons item rest =>
    simp only [Item.visitsAll, List.mem_append] at hv
    rcases hv with hv | hv
    · exact Item.mem_visits hv
    · exact Item.mem_visitsAll hv

end

theorem Item.mem_visitCells {items : List Item} {cells : List Cell} {p : Pass} {v : Visit}
    (hv : v ∈ Item.visitCells k items cells p) : v.cell ∈ cells ∧ v.item.isConditional = false := by
  induction cells generalizing p with
  | nil => simp [Item.visitCells] at hv
  | cons cell rest ih =>
    simp only [Item.visitCells, List.mem_append] at hv
    rcases hv with hv | hv
    · obtain ⟨hcell, hitem⟩ := Item.mem_visitsAll hv
      exact ⟨hcell ▸ List.mem_cons_self, hitem⟩
    · exact ⟨List.mem_cons_of_mem _ (ih hv).1, (ih hv).2⟩

/-- What a visit leaves belongs to its cell, and rules for the host stand under a selector of the
host. -/
theorem Visit.mem_entries {v : Visit} (hleaf : v.item.isConditional = false) {e : Entry}
    (he : e ∈ v.entries k) :
    e.cell = v.cell ∧
      ∀ cell selector rules, e = .rules cell (.host selector) rules → Selector.isHost selector := by
  obtain ⟨cell, item, p⟩ := v
  cases item with
  | conditional name arguments items => simp [Item.isConditional] at hleaf
  | declaration d =>
    simp only [Visit.entries, Item.compile_declaration, List.mem_singleton] at he
    simp [he, Entry.cell]
  | keyframes block =>
    simp only [Visit.entries, Item.compile_keyframes, List.mem_singleton] at he
    simp [he, Entry.cell]
  | comment text => simp [Visit.entries, Item.compile_comment] at he
  | pseudo b =>
    simp only [Visit.entries, Item.compile_pseudo] at he
    cases htarget : Target.ofSelector b.selector with
    | cell suffix =>
      simp only [PseudoBlock.compile_cell htarget, List.mem_singleton] at he
      simp [he, Entry.cell]
    | host selector =>
      rw [PseudoBlock.compile_host htarget] at he
      split at he
      · simp at he
      · rw [List.mem_singleton.mp he]
        refine ⟨rfl, ?_⟩
        rintro _ _ _ ⟨⟩
        exact Target.isHost_of_ofSelector htarget

/-- Every entry of a log comes from a visit of its cell. -/
theorem Item.mem_compileCells {items : List Item} {cells : List Cell} {p : Pass} {e : Entry}
    (he : e ∈ (Item.compileCells k items cells p).1) :
    ∃ v ∈ Item.visitCells k items cells p, e ∈ v.entries k ∧ e.cell = v.cell := by
  rw [Item.compileCells_eq_visits, List.mem_flatMap] at he
  obtain ⟨v, hv, he⟩ := he
  exact ⟨v, hv, he, (Visit.mem_entries (Item.mem_visitCells hv).2 he).1⟩

/-- The number of the host block that a visit reaches. -/
def Visit.host? (v : Visit) : Option Nat :=
  match v.item with
  | .pseudo b =>
    match Target.ofSelector b.selector with
    | .host _ => some b.id
    | .cell _ => none
  | _ => none

/-- What visits have to do with the host blocks that are noted before and after them: each of them
finds those noted that were noted at first and those that were visited since. -/
structure Visit.Tracked (visits : List Visit) (hosts hosts' : List Nat) : Prop where
  found : ∀ before v after, visits = before ++ v :: after →
    ∀ id, id ∈ v.pass.hosts ↔ id ∈ hosts ∨ ∃ u ∈ before, u.host? = some id
  left : ∀ id, id ∈ hosts' ↔ id ∈ hosts ∨ ∃ u ∈ visits, u.host? = some id

theorem Visit.Tracked.nil (hosts : List Nat) : Visit.Tracked [] hosts hosts where
  found := by simp
  left := by simp

theorem Visit.Tracked.append {visits more : List Visit} {hosts hosts' hosts'' : List Nat}
    (h : Visit.Tracked visits hosts hosts') (h' : Visit.Tracked more hosts' hosts'') :
    Visit.Tracked (visits ++ more) hosts hosts'' where
  left := by
    intro id
    rw [h'.left, h.left, or_assoc]
    simp only [List.mem_append, or_and_right, exists_or]
  found := by
    intro before v after heq id
    -- The visit is one of `more`, or one of `visits`; in between it is the first of `more`.
    rcases List.append_eq_append_iff.mp heq with ⟨mid, rfl, hmore⟩ | ⟨mid, rfl, hafter⟩
    · rw [h'.found mid v after hmore, h.left, or_assoc]
      simp only [List.mem_append, or_and_right, exists_or]
    · cases mid with
      | nil =>
        rw [h'.found [] v after hafter.symm, h.left]
        simp
      | cons u mid =>
        obtain ⟨rfl, -⟩ := List.cons.inj hafter
        exact h.found before v mid rfl id

theorem Visit.Tracked.singleton {v : Visit} (hleaf : v.item.isConditional = false) :
    Visit.Tracked [v] v.pass.hosts (v.item.compile k v.cell v.pass).2.hosts where
  found := by
    intro before u after heq id
    cases before with
    | nil =>
      obtain ⟨rfl, -⟩ := List.cons.inj heq
      simp
    | cons w before => simp at heq
  left := by
    intro id
    obtain ⟨cell, item, p⟩ := v
    cases item with
    | conditional name arguments items => simp [Item.isConditional] at hleaf
    | declaration d => simp [Item.compile_declaration, Visit.host?]
    | keyframes block => simp [Item.compile_keyframes, Visit.host?]
    | comment text => simp [Item.compile_comment, Visit.host?]
    | pseudo b =>
      cases htarget : Target.ofSelector b.selector with
      | cell suffix =>
        simp [Item.compile_pseudo, PseudoBlock.compile_cell htarget, Visit.host?, htarget]
      | host selector =>
        have hhost : Visit.host? ⟨cell, .pseudo b, p⟩ = some b.id := by simp [Visit.host?, htarget]
        simp only [Item.compile_pseudo, PseudoBlock.compile_host htarget, List.mem_singleton,
          exists_eq_left, hhost, Option.some.injEq]
        by_cases hid : b.id ∈ p.hosts
        · simp only [hid, if_true, iff_self_or]
          rintro rfl
          exact hid
        · simp only [hid, if_false, List.mem_cons]
          rw [or_comm, eq_comm]

mutual

theorem Item.visits_tracked (item : Item) (p : Pass) :
    Visit.Tracked (item.visits k cell p) p.hosts (item.compile k cell p).2.hosts := by
  cases item with
  | conditional name arguments items =>
    rw [Item.compile_conditional]
    simp only [Item.visits]
    split
    · exact Item.visitsAll_tracked items (Pass.inScope (holds k cell name arguments) p).2
    · exact .nil p.hosts
  | declaration | pseudo | keyframes | comment =>
    rw [Item.visits_of_leaf rfl]
    exact .singleton rfl

theorem Item.visitsAll_tracked (items : List Item) (p : Pass) :
    Visit.Tracked (Item.visitsAll k cell items p) p.hosts
      (Item.compileAll k cell items p).2.hosts := by
  cases items with
  | nil =>
    rw [Item.compileAll_nil]
    simp only [Item.visitsAll]
    exact .nil p.hosts
  | cons item rest =>
    rw [Item.compileAll_cons]
    simp only [Item.visitsAll]
    exact (Item.visits_tracked item p).append (Item.visitsAll_tracked rest _)

end

/-- The host blocks that a pass finds noted are those that it has visited. -/
theorem Item.visitCells_tracked (items : List Item) (cells : List Cell) (p : Pass) :
    Visit.Tracked (Item.visitCells k items cells p) p.hosts
      (Item.compileCells k items cells p).2.hosts := by
  induction cells generalizing p with
  | nil => exact .nil p.hosts
  | cons cell rest ih =>
    rw [Item.compileCells_cons]
    simp only [Item.visitCells]
    exact (Item.visitsAll_tracked items p).append (ih _)

end GridCss

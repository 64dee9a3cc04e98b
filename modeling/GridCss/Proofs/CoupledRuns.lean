import GridCss.Style.Output
import Mathlib.Data.Option.Basic
import Mathlib.Data.List.Forall2

/-!
# Coupled runs

Two runs are followed side by side, each with a state of its own. A coupling says which states
belong together. As long as every function of one registry keeps to the coupling with the function
of the same name in the other registry, whole compilations keep to it: same styles, and states that
belong together again. The second run may stray, and nothing is promised from there on.
-/

namespace GridCss

variable {σ τ α β γ δ : Type}

/-- Which states of two runs belong together, and where the second run has strayed. -/
structure Coupling (σ τ : Type) where
  related : σ → τ → Prop
  strayed : τ → Prop := fun _ => False

namespace Coupling

/-- From states that belong together the results are related by `Q` and the new states belong
together, unless the second run strays; a run that has strayed does not come back. -/
structure Matches (c : Coupling σ τ) (Q : α → β → Prop) (m : StateM σ α) (m' : StateM τ β) :
    Prop where
  strays : ∀ t, c.strayed t → c.strayed (m' t).2
  step : ∀ s t, c.related s t →
    c.strayed (m' t).2 ∨ (Q (m s).1 (m' t).1 ∧ c.related (m s).2 (m' t).2)

variable {c : Coupling σ τ} {Q : α → β → Prop} {Q' : γ → δ → Prop}

theorem Matches.pure {a : α} {b : β} (h : Q a b) :
    c.Matches Q (Pure.pure a : StateM σ α) (Pure.pure b) where
  strays := fun _ ht => ht
  step := fun _ _ hst => .inr ⟨h, hst⟩

theorem Matches.bind {m : StateM σ α} {m' : StateM τ β} {f : α → StateM σ γ}
    {f' : β → StateM τ δ} (hm : c.Matches Q m m')
    (hstrays : ∀ b t, c.strayed t → c.strayed (f' b t).2)
    (hf : ∀ a b, Q a b → c.Matches Q' (f a) (f' b)) :
    c.Matches Q' (m >>= f) (m' >>= f') where
  strays := fun t ht => hstrays _ _ (hm.strays t ht)
  step := by
    intro s t hst
    rcases hm.step s t hst with ht | ⟨hq, hst'⟩
    · exact .inl (hstrays _ _ ht)
    · exact (hf _ _ hq).step _ _ hst'

/-- Runs with equal results are followed by one and the same continuation. -/
theorem Matches.bind_eq {m : StateM σ α} {m' : StateM τ α} {f : α → StateM σ γ}
    {f' : α → StateM τ δ} (hm : c.Matches Eq m m') (hf : ∀ a, c.Matches Q' (f a) (f' a)) :
    c.Matches Q' (m >>= f) (m' >>= f') := by
  refine hm.bind (fun a => (hf a).strays) ?_
  rintro a _ rfl
  exact hf a

/-- The coupling of two passes: their scopes belong together, and the same host blocks have been
compiled. -/
def onPass (c : Coupling Scope Scope) : Coupling Pass Pass where
  related := fun p q => c.related p.scope q.scope ∧ p.hosts = q.hosts
  strayed := fun q => c.strayed q.scope

variable {c : Coupling Scope Scope}

theorem Matches.inScope {m m' : StateM Scope α} (h : c.Matches Eq m m') :
    c.onPass.Matches Eq (Pass.inScope m) (Pass.inScope m') where
  strays := fun q hq => h.strays q.scope hq
  step := by
    rintro p q ⟨hpq, hhosts⟩
    rcases h.step _ _ hpq with hs | ⟨heq, hs⟩
    · exact .inl hs
    · exact .inr ⟨heq, hs, hhosts⟩

theorem enterHost_matches (id : Nat) :
    c.onPass.Matches Eq (Pass.enterHost id) (Pass.enterHost id) where
  strays := by
    intro q hq
    unfold Pass.enterHost
    split <;> exact hq
  step := by
    rintro p q ⟨hpq, hhosts⟩
    refine .inr ?_
    unfold Pass.enterHost
    rw [hhosts]
    split
    · exact ⟨rfl, hpq, hhosts⟩
    · exact ⟨rfl, hpq, rfl⟩

/-- Two functions that keep to a coupling for every cell and all arguments. -/
def Functions (c : Coupling Scope Scope) (f f' : Function) : Prop :=
  ∀ cell arguments, c.Matches Eq (f cell arguments) (f' cell arguments)

/-- Two registries that keep to a coupling in the functions of the given names and in all
predicates. -/
structure Registries (c : Coupling Scope Scope) (names : String → Prop) (r r' : Registry) :
    Prop where
  function : ∀ name, names name → Option.Rel c.Functions (r.function? name) (r'.function? name)
  predicate : ∀ name, Option.Rel c.Functions (r.predicate? name) (r'.predicate? name)

end Coupling

mutual

/-- The names of all calls in a piece of an argument, nested ones included. -/
def Argument.callNames : Argument → List String
  | .text _ | .number _ => []
  | .call name arguments => name :: Argument.callNamesGroups arguments

def Argument.callNamesPieces : List Argument → List String
  | [] => []
  | a :: rest => a.callNames ++ Argument.callNamesPieces rest

def Argument.callNamesGroups : List (List Argument) → List String
  | [] => []
  | group :: rest => Argument.callNamesPieces group ++ Argument.callNamesGroups rest

end

def Node.callNames : Node → List String
  | .text _ => []
  | .call name arguments => (Argument.call name arguments).callNames

def Declaration.callNames (d : Declaration) : List String := d.value.flatMap Node.callNames

def Keyframes.callNames (k : Keyframes) : List String :=
  k.steps.flatMap fun step => step.declarations.flatMap Declaration.callNames

mutual

/-- The names of all calls in an item, in values and in arguments. -/
def Item.callNames : Item → List String
  | .declaration d => d.callNames
  | .pseudo b => b.declarations.flatMap Declaration.callNames
  | .conditional _ arguments items =>
    Argument.callNamesGroups arguments ++ Item.callNamesAll items
  | .keyframes k => k.callNames
  | .comment _ => []

def Item.callNamesAll : List Item → List String
  | [] => []
  | item :: rest => item.callNames ++ Item.callNamesAll rest

end

namespace Coupling

variable {c : Coupling Scope Scope} {names : String → Prop} {r r' : Registry} {cell : Cell}

mutual

theorem Registries.eval (hr : c.Registries names r r') (a : Argument)
    (ha : ∀ name ∈ a.callNames, names name) : c.Matches Eq (a.eval r cell) (a.eval r' cell) := by
  cases a with
  | text s => exact .pure rfl
  | number x => exact .pure rfl
  | call name arguments =>
    simp only [Argument.callNames, List.forall_mem_cons] at ha
    have hname := hr.function name ha.1
    have hgroups := hr.evalGroups arguments ha.2
    simp only [Argument.eval]
    revert hname
    cases r.function? name <;> cases r'.function? name <;> intro hname <;> cases hname
    · exact .pure rfl
    · next hf => exact hgroups.bind_eq fun vs => hf cell vs

theorem Registries.evalPieces (hr : c.Registries names r r') (pieces : List Argument)
    (hp : ∀ name ∈ Argument.callNamesPieces pieces, names name) :
    c.Matches Eq (Argument.evalPieces r cell pieces) (Argument.evalPieces r' cell pieces) := by
  cases pieces with
  | nil => exact .pure rfl
  | cons a rest =>
    simp only [Argument.callNamesPieces, List.forall_mem_append] at hp
    simp only [Argument.evalPieces]
    refine (hr.eval a hp.1).bind_eq fun v => ?_
    exact (hr.evalPieces rest hp.2).bind_eq fun vs => .pure rfl

theorem Registries.evalGroups (hr : c.Registries names r r') (groups : List (List Argument))
    (hg : ∀ name ∈ Argument.callNamesGroups groups, names name) :
    c.Matches Eq (Argument.evalGroups r cell groups) (Argument.evalGroups r' cell groups) := by
  cases groups with
  | nil => exact .pure rfl
  | cons group rest =>
    simp only [Argument.callNamesGroups, List.forall_mem_append] at hg
    simp only [Argument.evalGroups]
    refine (hr.evalPieces group hg.1).bind_eq fun pieces => ?_
    exact (hr.evalGroups rest hg.2).bind_eq fun vs => .pure rfl

end

theorem Registries.evalNode (hr : c.Registries names r r') (node : Node)
    (hn : ∀ name ∈ node.callNames, names name) :
    c.Matches Eq (node.eval r cell) (node.eval r' cell) := by
  cases node with
  | text s => exact .pure rfl
  | call name arguments => exact (hr.eval (.call name arguments) hn).bind_eq fun v => .pure rfl

theorem Registries.evalAll (hr : c.Registries names r r') (nodes : List Node)
    (hn : ∀ name ∈ nodes.flatMap Node.callNames, names name) :
    c.Matches Eq (Node.evalAll r cell nodes) (Node.evalAll r' cell nodes) := by
  induction nodes with
  | nil => exact .pure rfl
  | cons node rest ih =>
    simp only [List.flatMap_cons, List.forall_mem_append] at hn
    refine (hr.evalNode node hn.1).bind_eq fun s => ?_
    exact (ih hn.2).bind_eq fun t => .pure rfl

/-- Two contexts that differ in their registries only, which keep to a coupling. -/
structure Contexts (c : Coupling Scope Scope) (names : String → Prop) (k k' : Context) : Prop where
  registries : c.Registries names k.registry k'.registry
  renames : k.renames = k'.renames
  declared : k.declared = k'.declared

variable {k k' : Context}

theorem Contexts.compile (hk : c.Contexts names k k') (d : Declaration)
    (hd : ∀ name ∈ d.callNames, names name) :
    c.Matches Eq (d.compile k cell) (d.compile k' cell) := by
  unfold Declaration.compile
  rw [hk.renames, hk.declared]
  exact (hk.registries.evalAll d.value hd).bind_eq fun value => .pure rfl

theorem Contexts.compileAll (hk : c.Contexts names k k') (ds : List Declaration)
    (hd : ∀ name ∈ ds.flatMap Declaration.callNames, names name) :
    c.Matches Eq (Declaration.compileAll k cell ds) (Declaration.compileAll k' cell ds) := by
  induction ds with
  | nil => exact .pure rfl
  | cons d rest ih =>
    simp only [List.flatMap_cons, List.forall_mem_append] at hd
    refine (hk.compile d hd.1).bind_eq fun rule => ?_
    exact (ih hd.2).bind_eq fun rules => .pure rfl

theorem Contexts.holds (hk : c.Contexts names k k') (name : String)
    (arguments : List (List Argument))
    (ha : ∀ n ∈ Argument.callNamesGroups arguments, names n) :
    c.Matches Eq (holds k cell name arguments) (holds k' cell name arguments) := by
  have hname := hk.registries.predicate name
  have hgroups : c.Matches Eq (Argument.evalGroups k.registry cell arguments)
      (Argument.evalGroups k'.registry cell arguments) := hk.registries.evalGroups arguments ha
  simp only [GridCss.holds]
  revert hname
  cases k.registry.predicate? name <;> cases k'.registry.predicate? name <;> intro hname <;>
    cases hname
  · exact .pure rfl
  · next hf =>
    refine hgroups.bind_eq fun vs => ?_
    exact (hf cell vs).bind_eq fun v => .pure rfl

theorem Contexts.compilePseudo (hk : c.Contexts names k k') (b : PseudoBlock)
    (hb : ∀ name ∈ b.declarations.flatMap Declaration.callNames, names name) :
    c.onPass.Matches Eq (b.compile k cell) (b.compile k' cell) := by
  have hrules : c.Matches Eq (Declaration.compileAll k cell b.declarations)
      (Declaration.compileAll k' cell b.declarations) := hk.compileAll b.declarations hb
  unfold PseudoBlock.compile
  cases Target.ofSelector b.selector with
  | cell suffix => exact hrules.inScope.bind_eq fun rules => .pure rfl
  | host selector =>
    refine (enterHost_matches b.id).bind_eq fun first => ?_
    cases first with
    | false => exact .pure rfl
    | true => exact hrules.inScope.bind_eq fun rules => .pure rfl

mutual

theorem Contexts.compileItem (hk : c.Contexts names k k') (item : Item)
    (hi : ∀ name ∈ item.callNames, names name) :
    c.onPass.Matches Eq (item.compile k cell) (item.compile k' cell) := by
  cases item with
  | declaration d =>
    simp only [Item.callNames] at hi
    simp only [Item.compile]
    exact (hk.compile d hi).inScope.bind_eq fun rule => .pure rfl
  | pseudo b =>
    simp only [Item.callNames] at hi
    simp only [Item.compile]
    exact hk.compilePseudo b hi
  | conditional name arguments items =>
    simp only [Item.callNames, List.forall_mem_append] at hi
    simp only [Item.compile]
    refine (hk.holds name arguments hi.1).inScope.bind_eq fun holds => ?_
    cases holds with
    | false => exact .pure rfl
    | true => exact hk.compileItems items hi.2
  | keyframes block =>
    simp only [Item.compile]
    exact .pure rfl
  | comment text =>
    simp only [Item.compile]
    exact .pure rfl

theorem Contexts.compileItems (hk : c.Contexts names k k') (items : List Item)
    (hi : ∀ name ∈ Item.callNamesAll items, names name) :
    c.onPass.Matches Eq (Item.compileAll k cell items) (Item.compileAll k' cell items) := by
  cases items with
  | nil =>
    simp only [Item.compileAll]
    exact .pure rfl
  | cons item rest =>
    simp only [Item.callNamesAll, List.forall_mem_append] at hi
    simp only [Item.compileAll]
    refine (hk.compileItem item hi.1).bind_eq fun entries => ?_
    exact (hk.compileItems rest hi.2).bind_eq fun more => .pure rfl

end

theorem Contexts.compileCells (hk : c.Contexts names k k') (items : List Item)
    (hi : ∀ name ∈ Item.callNamesAll items, names name) (cells : List Cell) :
    c.onPass.Matches Eq (Item.compileCells k items cells) (Item.compileCells k' items cells) := by
  induction cells with
  | nil => exact .pure rfl
  | cons cell rest ih =>
    refine (hk.compileItems items hi).bind_eq fun entries => ?_
    exact ih.bind_eq fun more => .pure rfl

theorem Contexts.compileSteps (hk : c.Contexts names k k') (steps : List KeyframeStep)
    (hs : ∀ name ∈ steps.flatMap fun step => step.declarations.flatMap Declaration.callNames,
      names name) :
    c.Matches Eq (KeyframeStep.compileAll k cell steps)
      (KeyframeStep.compileAll k' cell steps) := by
  induction steps with
  | nil => exact .pure rfl
  | cons step rest ih =>
    simp only [List.flatMap_cons, List.forall_mem_append] at hs
    refine (hk.compileAll step.declarations hs.1).bind_eq fun rules => ?_
    exact (ih hs.2).bind_eq fun more => .pure rfl

theorem Contexts.compileAs (hk : c.Contexts names k k') (block : Keyframes)
    (hb : ∀ name ∈ block.callNames, names name) (name : String) :
    c.Matches Eq (block.compileAs k name cell) (block.compileAs k' name cell) :=
  (hk.compileSteps block.steps hb).bind_eq fun _ => .pure rfl

theorem Contexts.compileCopies (hk : c.Contexts names k k') (block : Keyframes)
    (hb : ∀ name ∈ block.callNames, names name) (cells : List Cell) :
    c.Matches Eq (block.compileCopies k cells) (block.compileCopies k' cells) := by
  induction cells with
  | nil => exact .pure rfl
  | cons cell rest ih =>
    refine (hk.compileAs block hb _).bind_eq fun copy => ?_
    exact ih.bind_eq fun more => .pure rfl

theorem Contexts.compileKeyframes (hk : c.Contexts names k k') (animated : List Cell)
    (blocks : List (Cell × Keyframes)) (hb : ∀ b ∈ blocks, ∀ name ∈ b.2.callNames, names name) :
    c.Matches Eq (Keyframes.compileAll k animated blocks)
      (Keyframes.compileAll k' animated blocks) := by
  induction blocks with
  | nil => exact .pure rfl
  | cons b rest ih =>
    rw [List.forall_mem_cons] at hb
    simp only [Keyframes.compileAll, hk.renames]
    refine (hk.compileAs b.2 hb.1 _).bind_eq fun base => ?_
    refine (hk.compileCopies b.2 hb.1 _).bind_eq fun copies => ?_
    exact (ih hb.2).bind_eq fun more => .pure rfl

end Coupling

/-- A compilation is the pass over the cells, followed by the keyframes that the pass has left. -/
theorem Compilation.run_eq (registry : Registry) (grid : Grid) (items : List Item) (scope : Scope) :
    run registry grid items scope =
      let k := context registry grid items
      let cells := Item.compileCells k items grid.cells { scope := scope }
      let keyframes := Keyframes.compileAll k (Entry.animatedCells cells.1)
        (Entry.firstKeyframes cells.1) cells.2.scope
      (⟨cells.1, keyframes.1⟩, keyframes.2) := rfl

namespace Coupling

variable {c : Coupling Scope Scope} {r r' : Registry}

/-- Compilations with registries that keep to a coupling keep to it. -/
theorem Registries.run (hr : c.Registries (fun _ => True) r r') (grid : Grid) (items : List Item) :
    c.Matches Eq (Compilation.run r grid items) (Compilation.run r' grid items) := by
  have hk : c.Contexts (fun _ => True) (Compilation.context r grid items)
      (Compilation.context r' grid items) := ⟨hr, rfl, rfl⟩
  have hcells := hk.compileCells items (fun _ _ => trivial) grid.cells
  have hkeyframes := fun animated blocks =>
    hk.compileKeyframes animated blocks fun _ _ _ _ => trivial
  refine ⟨fun t ht => (hkeyframes _ _).strays _ (hcells.strays { scope := t } ht), ?_⟩
  intro s t hst
  rcases hcells.step { scope := s } { scope := t } ⟨hst, rfl⟩ with ht | ⟨hlog, hpass, -⟩
  · exact .inl ((hkeyframes _ _).strays _ ht)
  · simp only [Compilation.run_eq, hlog]
    rcases (hkeyframes _ _).step _ _ hpass with ht | ⟨hblocks, hscope⟩
    · exact .inl ht
    · exact .inr ⟨congrArg _ hblocks, hscope⟩

end Coupling

end GridCss

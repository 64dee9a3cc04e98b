import GridCss.Proofs.Memoization
import GridCss.Proofs.ScopedSelectors
import GridCss.Proofs.SingleLines
import GridCss.Proofs.TidySources

/-!
# Groups and lines

The groups of the cells are written one on a line. They can be told apart by their lines exactly if
no rule has a line break. Text between calls has none, and the functions that compute something
write none; only `any` and `pick` give an argument back as it is. So a rule has a line break only if
the source has one in a text that such a call may choose.
-/

namespace GridCss

open Text

variable {σ α β : Type}

/-- From states with an invariant, the result satisfies `P` and the new state has the invariant
again. -/
def Keeps (I : σ → Prop) (P : α → Prop) (m : StateM σ α) : Prop :=
  ∀ s, I s → P (m s).1 ∧ I (m s).2

namespace Keeps

variable {I : σ → Prop} {P : α → Prop} {Q : β → Prop}

theorem pure {a : α} (h : P a) : Keeps I P (Pure.pure a : StateM σ α) := fun _ hs => ⟨h, hs⟩

theorem bind {m : StateM σ α} {f : α → StateM σ β} (hm : Keeps I P m)
    (hf : ∀ a, P a → Keeps I Q (f a)) : Keeps I Q (m >>= f) := by
  intro s hs
  obtain ⟨ha, hs'⟩ := hm s hs
  exact hf _ ha _ hs'

theorem mono {P' : α → Prop} {m : StateM σ α} (hm : Keeps I P m) (h : ∀ a, P a → P' a) :
    Keeps I P' m := fun s hs => ⟨h _ (hm s hs).1, (hm s hs).2⟩

theorem inScope {I : Scope → Prop} {m : StateM Scope α} (hm : Keeps I P m) :
    Keeps (fun p : Pass => I p.scope) P (Pass.inScope m) := fun p hp => hm p.scope hp

theorem enterHost {I : Scope → Prop} (id : Nat) :
    Keeps (fun p : Pass => I p.scope) (fun _ => True) (Pass.enterHost id) := by
  intro p hp
  unfold Pass.enterHost
  split
  · exact ⟨trivial, hp⟩
  · exact ⟨trivial, hp⟩

end Keeps

def Value.IsLine (v : Value) : Prop := Text.IsLine v.display

theorem Value.isLine_number (x : Float) : (Value.number x).IsLine := Number.isLine_text x

/-- All results in the memo are on single lines. -/
def Scope.RecallsLines (scope : Scope) : Prop := ∀ e ∈ scope.memo.entries, ∀ v ∈ e.2, v.IsLine

/-- Whatever the arguments, the function gives a value on a single line, if any. -/
def Function.GivesLines (f : Function) : Prop :=
  ∀ cell arguments, Keeps Scope.RecallsLines (fun r => ∀ v ∈ r, v.IsLine) (f cell arguments)

namespace Function

theorem givesLines_pure {g : Cell → List Value → Option Value}
    (h : ∀ cell arguments, ∀ v ∈ g cell arguments, v.IsLine) : (Function.pure g).GivesLines :=
  fun cell arguments => .pure (h cell arguments)

theorem givesLines_drawing {g : List Value → Words → Option Value × Words}
    (h : ∀ arguments words, ∀ v ∈ (g arguments words).1, v.IsLine) :
    (Function.drawing g).GivesLines :=
  fun _ arguments scope hscope => ⟨h arguments scope.words, hscope⟩

end Function

namespace Math

theorem givesLines_constant (x : Float) : (constant x).GivesLines := by
  apply Function.givesLines_pure
  rintro cell arguments v ⟨⟩
  exact Value.isLine_number x

theorem givesLines_unary (f : Float → Float) : (unary f).GivesLines := by
  apply Function.givesLines_pure
  intro cell arguments v hv
  obtain ⟨x, -, rfl⟩ := Option.map_eq_some_iff.mp hv
  exact Value.isLine_number _

theorem givesLines_binary (f : Float → Float → Float) : (binary f).GivesLines := by
  apply Function.givesLines_pure
  intro cell arguments v hv
  obtain ⟨x, -, hx⟩ := Option.bind_eq_some_iff.mp hv
  obtain ⟨y, -, hy⟩ := Option.bind_eq_some_iff.mp hx
  cases hy
  exact Value.isLine_number _

theorem givesLines_variadic (f : List Float → Float) : (variadic f).GivesLines := by
  apply Function.givesLines_pure
  intro cell arguments v hv
  obtain ⟨xs, -, rfl⟩ := Option.map_eq_some_iff.mp hv
  exact Value.isLine_number _

theorem givesLines_random : random.GivesLines := by
  apply Function.givesLines_drawing
  rintro arguments words v ⟨⟩
  exact Value.isLine_number _

theorem table_givesLines : ∀ e ∈ table, e.2.GivesLines := by
  have hconstants : ∀ e ∈ constants, e.2.GivesLines := by
    simp only [constants, List.forall_mem_cons, givesLines_constant, true_and]
    exact List.forall_mem_nil _
  have hunaries : ∀ e ∈ unaries, e.2.GivesLines := by
    simp only [unaries, List.forall_mem_cons, givesLines_unary, true_and]
    exact List.forall_mem_nil _
  simp only [table, List.forall_mem_append, List.forall_mem_cons, givesLines_binary,
    givesLines_variadic, givesLines_random, true_and]
  exact ⟨⟨hconstants, hunaries⟩, List.forall_mem_nil _⟩

end Math

namespace Generative

/-- The functions that give one of their arguments. -/
def choosingNames : List String := ["any", "pick"]

theorem keeps_any (cell : Cell) (arguments : List Value) :
    Keeps Scope.RecallsLines (fun r => (∀ v ∈ arguments, v.IsLine) → ∀ v ∈ r, v.IsLine)
      (any cell arguments) := by
  intro scope hscope
  refine ⟨fun harguments v hv => harguments v ?_, hscope⟩
  have hv' : v ∈ (Words.choose arguments scope.words).1 := hv
  unfold Words.choose at hv'
  split at hv'
  · cases hv'
  · exact List.mem_of_getElem? hv'

/-- What is recalled is on single lines if what is computed is. -/
theorem keeps_remember (family : String) (arguments : List Value) {compute : Unit → List Value}
    (h : ∀ v ∈ compute (), v.IsLine) :
    Keeps Scope.RecallsLines (fun vs => ∀ v ∈ vs, v.IsLine)
      (remember family arguments compute) := by
  intro scope hscope
  have hrun : remember family arguments compute scope =
      ((scope.memo.remember (Memo.Key.ofCall family arguments) compute).1,
        { scope with
          memo := (scope.memo.remember (Memo.Key.ofCall family arguments) compute).2 }) := rfl
  rw [hrun]
  constructor
  · cases hget : scope.memo.get? (Memo.Key.ofCall family arguments) with
    | some stored =>
      rw [Memo.remember_of_get? hget]
      exact hscope _ (Memo.mem_of_get? hget)
    | none =>
      rw [Memo.remember_of_get?_none hget]
      exact h
  · intro e he
    rcases List.mem_cons.mp (Memo.remember_entries_subset _ _ (compute ()) he) with rfl | he
    · exact h
    · exact hscope e he

theorem isLine_of_mem_unitRange {arguments : List Value} :
    ∀ v ∈ unitRange arguments, v.IsLine := by
  intro v hv
  unfold unitRange at hv
  dsimp only at hv
  split at hv
  · cases hv
  · obtain ⟨x, -, rfl⟩ := List.mem_map.mp hv
    split
    · exact isLine_append.mpr ⟨Number.isLine_text x, Measure.isLine_text _⟩
    · exact Value.isLine_number x

theorem givesLines_rand : rand.GivesLines := by
  intro cell arguments
  refine (keeps_remember "range" arguments isLine_of_mem_unitRange).bind fun values hvalues => ?_
  exact (keeps_any cell values).mono fun r hr => hr hvalues

theorem givesLines_shape : shape.GivesLines := by
  intro cell arguments
  cases arguments with
  | nil => exact .pure (by simp)
  | cons name rest =>
    refine (keeps_remember "shape" (name :: rest) ?_).bind fun shapes hshapes => ?_
    · intro v hv
      obtain ⟨s, hs, rfl⟩ := Option.map_eq_some_iff.mp (Option.mem_toList.mp hv)
      exact Shape.isLine_of_generate hs
    · exact .pure fun v hv => hshapes v (List.mem_of_head? hv)

end Generative

/-- A built-in function gives one of its arguments or a value on a single line. -/
theorem Registry.builtin_function_cases {name : String} {f : Function}
    (h : builtin.function? name = some f) :
    (name ∈ Generative.choosingNames ∧ f = Generative.any) ∨ f.GivesLines := by
  rcases Option.or_eq_some_iff.mp h with h | ⟨-, h⟩
  · have hmem := FunctionTable.mem_of_get? h
    simp only [builtin, Generative.table, List.mem_cons, Prod.mk.injEq, List.not_mem_nil,
      or_false] at hmem
    have hnumber : ∀ g : Cell → Float,
        (Function.pure fun cell _ => some (.number (g cell))).GivesLines := by
      intro g
      apply Function.givesLines_pure
      rintro cell arguments v ⟨⟩
      exact Value.isLine_number _
    rcases hmem with ⟨-, rfl⟩ | ⟨-, rfl⟩ | ⟨-, rfl⟩ | ⟨rfl, rfl⟩ | ⟨rfl, rfl⟩ | ⟨-, rfl⟩ | ⟨-, rfl⟩
    · exact .inr (hnumber _)
    · exact .inr (hnumber _)
    · exact .inr (hnumber _)
    · exact .inl ⟨by decide, rfl⟩
    · exact .inl ⟨by decide, rfl⟩
    · exact .inr Generative.givesLines_rand
    · exact .inr Generative.givesLines_shape
  · exact .inr (Math.table_givesLines _ (FunctionTable.mem_of_get? h))

mutual

/-- The texts that an argument may pass on to the value it stands in: its own, and those that its
calls may choose. -/
def Argument.passed : Argument → List String
  | .text s => [s]
  | .number _ => []
  | .call name arguments =>
    if name ∈ Generative.choosingNames then Argument.passedGroups arguments else []

def Argument.passedPieces : List Argument → List String
  | [] => []
  | a :: rest => a.passed ++ Argument.passedPieces rest

def Argument.passedGroups : List (List Argument) → List String
  | [] => []
  | group :: rest => Argument.passedPieces group ++ Argument.passedGroups rest

end

/-- The texts that calls in a value may choose. -/
def Node.passed : Node → List String
  | .text _ => []
  | .call name arguments => (Argument.call name arguments).passed

def Declaration.passed (d : Declaration) : List String := d.value.flatMap Node.passed

mutual

/-- The texts that calls in the rules of the cells may choose. -/
def Item.passed : Item → List String
  | .declaration d => d.passed
  | .pseudo b =>
    match Target.ofSelector b.selector with
    | .cell _ => b.declarations.flatMap Declaration.passed
    | .host _ => []
  | .conditional _ _ items => Item.passedAll items
  | .keyframes _ | .comment _ => []

def Item.passedAll : List Item → List String
  | [] => []
  | item :: rest => item.passed ++ Item.passedAll rest

end

theorem isLine_displayOr {r : Option Value} (h : ∀ v ∈ r, v.IsLine) : IsLine (displayOr r) := by
  cases r with
  | none => exact by decide
  | some v => exact h v rfl

theorem isLine_joinPieces {rs : List (Option Value)} (h : ∀ r ∈ rs, ∀ v ∈ r, v.IsLine) :
    (joinPieces rs).IsLine := by
  match rs with
  | [] => exact (by decide : IsLine "")
  | [none] => exact (by decide : IsLine "")
  | [some v] => exact h _ List.mem_cons_self v rfl
  | r :: r' :: rest =>
    show '\n' ∉ (String.join ((r :: r' :: rest).map displayOr)).toList
    rw [String.toList_join, List.flatMap_map, List.mem_flatMap]
    rintro ⟨x, hx, hnewline⟩
    exact isLine_displayOr (h x hx) hnewline

variable {cell : Cell}

mutual

/-- The value of an argument is on a single line if all that it may pass on is. -/
theorem Argument.keeps_eval (a : Argument) :
    Keeps Scope.RecallsLines (fun r => (∀ s ∈ a.passed, IsLine s) → ∀ v ∈ r, v.IsLine)
      (a.eval Registry.builtin cell) := by
  cases a with
  | text s => exact .pure (by simp [Argument.passed, Value.IsLine, Value.display])
  | number x =>
    refine .pure fun _ v hv => ?_
    cases hv
    exact Value.isLine_number x
  | call name arguments =>
    simp only [Argument.eval]
    cases hf : Registry.builtin.function? name with
    | none => exact .pure (by simp)
    | some f =>
      refine (Argument.keeps_evalGroups arguments).bind fun vs hvs => ?_
      rcases Registry.builtin_function_cases hf with ⟨hname, rfl⟩ | hlines
      · simp only [Argument.passed, if_pos hname]
        exact (Generative.keeps_any cell vs).mono fun r hr h => hr (hvs h)
      · exact (hlines cell vs).mono fun r hr _ => hr

theorem Argument.keeps_evalPieces (pieces : List Argument) :
    Keeps Scope.RecallsLines
      (fun rs => (∀ s ∈ Argument.passedPieces pieces, IsLine s) → ∀ r ∈ rs, ∀ v ∈ r, v.IsLine)
      (Argument.evalPieces Registry.builtin cell pieces) := by
  cases pieces with
  | nil => exact .pure (by simp)
  | cons a rest =>
    simp only [Argument.evalPieces, Argument.passedPieces, List.forall_mem_append]
    refine (Argument.keeps_eval a).bind fun r hr => ?_
    refine (Argument.keeps_evalPieces rest).bind fun rs hrs => .pure fun h => ?_
    exact List.forall_mem_cons.mpr ⟨hr h.1, hrs h.2⟩

theorem Argument.keeps_evalGroups (groups : List (List Argument)) :
    Keeps Scope.RecallsLines
      (fun vs => (∀ s ∈ Argument.passedGroups groups, IsLine s) → ∀ v ∈ vs, v.IsLine)
      (Argument.evalGroups Registry.builtin cell groups) := by
  cases groups with
  | nil => exact .pure (by simp)
  | cons group rest =>
    simp only [Argument.evalGroups, Argument.passedGroups, List.forall_mem_append]
    refine (Argument.keeps_evalPieces group).bind fun rs hrs => ?_
    refine (Argument.keeps_evalGroups rest).bind fun vs hvs => .pure fun h => ?_
    exact List.forall_mem_cons.mpr ⟨isLine_joinPieces (hrs h.1), hvs h.2⟩

end

/-- Between calls there are no line breaks. -/
theorem Text.IsValueText.isLine {s : String} (h : IsValueText s.toList) : IsLine s := by
  intro hnewline
  exact absurd ((h.chars _ hnewline).2.2.2 (by decide)) (by decide)

theorem Node.keeps_eval {node : Node} (hnode : node.Tidy) :
    Keeps Scope.RecallsLines (fun t => (∀ s ∈ node.passed, IsLine s) → IsLine t)
      (node.eval Registry.builtin cell) := by
  cases node with
  | text s => exact .pure fun _ => Text.IsValueText.isLine hnode
  | call name arguments =>
    refine (Argument.keeps_eval (.call name arguments)).bind fun r hr => .pure fun h => ?_
    exact isLine_displayOr (hr h)

theorem Node.keeps_evalAll {nodes : List Node} (hnodes : ∀ node ∈ nodes, node.Tidy) :
    Keeps Scope.RecallsLines (fun t => (∀ s ∈ nodes.flatMap Node.passed, IsLine s) → IsLine t)
      (Node.evalAll Registry.builtin cell nodes) := by
  induction nodes with
  | nil => exact .pure fun _ => by decide
  | cons node rest ih =>
    rw [List.forall_mem_cons] at hnodes
    simp only [List.flatMap_cons, List.forall_mem_append]
    refine (Node.keeps_eval hnodes.1).bind fun s hs => ?_
    refine (ih hnodes.2).bind fun t ht => .pure fun h => ?_
    exact isLine_append.mpr ⟨hs h.1, ht h.2⟩

theorem Text.IsName.isLine {s : String} (h : IsName s) : IsLine s := by
  intro hnewline
  exact absurd (h.2 _ hnewline) (by decide)

theorem Text.IsSelector.isLine {s : String} (h : IsSelector s) : IsLine s := by
  intro hnewline
  exact absurd (h _ hnewline).1 (by decide)

variable {k : Context}

theorem Declaration.keeps_compile (hk : k.registry = Registry.builtin) {d : Declaration}
    (hd : d.Tidy) :
    Keeps Scope.RecallsLines (fun rule => (∀ s ∈ d.passed, IsLine s) → IsLine rule.text)
      (d.compile k cell) := by
  unfold Declaration.compile
  rw [hk]
  refine (Node.keeps_evalAll hd.value.nodes).bind fun value hvalue => .pure fun h => ?_
  exact Rule.isLine_write (Text.IsName.isLine hd.property) (hvalue h) _ _

theorem Declaration.keeps_compileAll (hk : k.registry = Registry.builtin) {ds : List Declaration}
    (hds : ∀ d ∈ ds, d.Tidy) :
    Keeps Scope.RecallsLines
      (fun rules => (∀ s ∈ ds.flatMap Declaration.passed, IsLine s) →
        ∀ rule ∈ rules, IsLine rule.text)
      (Declaration.compileAll k cell ds) := by
  induction ds with
  | nil => exact .pure (by simp)
  | cons d rest ih =>
    rw [List.forall_mem_cons] at hds
    simp only [List.flatMap_cons, List.forall_mem_append]
    refine (Declaration.keeps_compile hk hds.1).bind fun rule hrule => ?_
    refine (ih hds.2).bind fun rules hrules => .pure fun h => ?_
    exact List.forall_mem_cons.mpr ⟨hrule h.1, hrules h.2⟩

theorem keeps_holds (hk : k.registry = Registry.builtin) (name : String)
    (arguments : List (List Argument)) :
    Keeps Scope.RecallsLines (fun _ => True) (holds k cell name arguments) := by
  unfold holds
  rw [hk]
  cases hf : Registry.builtin.predicate? name with
  | none => exact .pure trivial
  | some f =>
    obtain ⟨g, rfl⟩ := Registry.builtin_predicate_isPure hf
    exact (Argument.keeps_evalGroups arguments).bind fun vs _ => .pure trivial

/-- The rules of an entry for cells are on single lines. -/
def Entry.HasLines : Entry → Prop
  | .rules _ (.cell _) rs => ∀ rule ∈ rs, IsLine rule.text
  | .rules _ (.host _) _ | .keyframes .. => True

theorem PseudoBlock.keeps_compile (hk : k.registry = Registry.builtin) {b : PseudoBlock}
    (hb : ∀ d ∈ b.declarations, d.Tidy) (h : ∀ s ∈ (Item.pseudo b).passed, IsLine s) :
    Keeps (fun p : Pass => p.scope.RecallsLines) (fun log => ∀ e ∈ log, e.HasLines)
      (b.compile k cell) := by
  have hrules : Keeps (fun p : Pass => p.scope.RecallsLines)
      (fun rules => (∀ s ∈ b.declarations.flatMap Declaration.passed, IsLine s) →
        ∀ rule ∈ rules, IsLine rule.text)
      (Pass.inScope (Declaration.compileAll k cell b.declarations)) :=
    (Declaration.keeps_compileAll hk hb).inScope
  unfold PseudoBlock.compile
  simp only [Item.passed] at h
  cases htarget : Target.ofSelector b.selector with
  | cell suffix =>
    rw [htarget] at h
    refine hrules.bind fun rules hlines => .pure ?_
    exact List.forall_mem_singleton.mpr (hlines h)
  | host selector =>
    refine (Keeps.enterHost b.id).bind fun first _ => ?_
    cases first with
    | false => exact .pure (by simp)
    | true => exact hrules.bind fun rules _ => .pure (List.forall_mem_singleton.mpr trivial)

mutual

theorem Item.keeps_compile (hk : k.registry = Registry.builtin) {item : Item} (hitem : item.Tidy)
    (h : ∀ s ∈ item.passed, IsLine s) :
    Keeps (fun p : Pass => p.scope.RecallsLines) (fun log => ∀ e ∈ log, e.HasLines)
      (item.compile k cell) := by
  match item, hitem with
  | .declaration d, .declaration hd =>
    simp only [Item.passed] at h
    simp only [Item.compile]
    refine (Declaration.keeps_compile hk hd).inScope.bind fun rule hrule => .pure ?_
    exact List.forall_mem_singleton.mpr (List.forall_mem_singleton.mpr (hrule h))
  | .pseudo b, .pseudo _ _ hb =>
    simp only [Item.compile]
    exact PseudoBlock.keeps_compile hk hb h
  | .conditional name arguments items, .conditional _ _ hitems =>
    simp only [Item.passed] at h
    simp only [Item.compile]
    refine (keeps_holds hk name arguments).inScope.bind fun first _ => ?_
    cases first with
    | false => exact .pure (by simp)
    | true => exact Item.keeps_compileAll hk hitems h
  | .keyframes block, _ =>
    simp only [Item.compile]
    exact .pure (List.forall_mem_singleton.mpr trivial)
  | .comment text, _ =>
    simp only [Item.compile]
    exact .pure (by simp)

theorem Item.keeps_compileAll (hk : k.registry = Registry.builtin) {items : List Item}
    (hitems : ∀ item ∈ items, item.Tidy) (h : ∀ s ∈ Item.passedAll items, IsLine s) :
    Keeps (fun p : Pass => p.scope.RecallsLines) (fun log => ∀ e ∈ log, e.HasLines)
      (Item.compileAll k cell items) := by
  match items with
  | [] =>
    simp only [Item.compileAll]
    exact .pure (by simp)
  | item :: rest =>
    rw [List.forall_mem_cons] at hitems
    simp only [Item.passedAll, List.forall_mem_append] at h
    simp only [Item.compileAll]
    refine (Item.keeps_compile hk hitems.1 h.1).bind fun entries hentries => ?_
    refine (Item.keeps_compileAll hk hitems.2 h.2).bind fun more hmore => .pure ?_
    exact List.forall_mem_append.mpr ⟨hentries, hmore⟩

end

theorem Item.keeps_compileCells (hk : k.registry = Registry.builtin) {items : List Item}
    (hitems : ∀ item ∈ items, item.Tidy) (h : ∀ s ∈ Item.passedAll items, IsLine s)
    (cells : List Cell) :
    Keeps (fun p : Pass => p.scope.RecallsLines) (fun log => ∀ e ∈ log, e.HasLines)
      (Item.compileCells k items cells) := by
  induction cells with
  | nil => exact .pure (by simp)
  | cons cell rest ih =>
    refine (Item.keeps_compileAll hk hitems h).bind fun entries hentries => ?_
    refine ih.bind fun more hmore => .pure ?_
    exact List.forall_mem_append.mpr ⟨hentries, hmore⟩

mutual

theorem Item.isSelector_of_mem_blocks {item : Item} (hitem : item.Tidy) :
    ∀ b ∈ item.blocks, IsSelector b.selector := by
  match item, hitem with
  | .pseudo b, .pseudo hb _ _ => simpa [Item.blocks] using hb
  | .conditional name arguments items, .conditional _ _ hitems =>
    simp only [Item.blocks]
    exact Item.isSelector_of_mem_blocksAll hitems
  | .declaration _, _ | .keyframes _, _ | .comment _, _ => simp [Item.blocks]

theorem Item.isSelector_of_mem_blocksAll {items : List Item}
    (hitems : ∀ item ∈ items, item.Tidy) :
    ∀ b ∈ Item.blocksAll items, IsSelector b.selector := by
  match items with
  | [] => simp [Item.blocksAll]
  | item :: rest =>
    rw [List.forall_mem_cons] at hitems
    simp only [Item.blocksAll, List.forall_mem_append]
    exact ⟨Item.isSelector_of_mem_blocks hitems.1, Item.isSelector_of_mem_blocksAll hitems.2⟩

end

theorem Selector.isLine_ofCell {suffix : String} (h : IsLine suffix) (index : Nat) :
    IsLine (Selector.ofCell ".cell" index suffix) := by
  rw [IsLine, Selector.toList_ofCell]
  simp only [List.mem_append, List.mem_cons, not_or]
  exact ⟨⟨⟨by decide, by decide⟩, newline_not_mem_toDigits index⟩, by decide, h⟩

namespace Compilation

variable {registry : Registry} {grid : Grid} {items : List Item} {scope : Scope}

theorem isLine_of_mem_cellGroups (hitems : ∀ item ∈ items, item.Tidy) {g : RuleGroup}
    (hg : g ∈ (run registry grid items scope).1.cellGroups ".cell") : IsLine g.selector := by
  obtain ⟨cell, -, suffix, hselector, hsuffix, -⟩ := exists_of_mem_cellGroups hg
  rw [hselector]
  apply Selector.isLine_ofCell
  rcases hsuffix with rfl | ⟨b, hb, rfl⟩
  · decide
  · exact Text.IsSelector.isLine (Item.isSelector_of_mem_blocksAll hitems b hb)

/-- Nothing that the rules of the cells are made of has a line break if nothing has that a call may
choose. -/
theorem isLine_of_mem_rules (hitems : ∀ item ∈ items, item.Tidy)
    (h : ∀ s ∈ Item.passedAll items, IsLine s) (hscope : scope.RecallsLines) {g : RuleGroup}
    (hg : g ∈ (run Registry.builtin grid items scope).1.cellGroups ".cell") :
    ∀ rule ∈ g.rules, IsLine rule := by
  obtain ⟨cell, -, suffix, -, -, hrules⟩ := exists_of_mem_cellGroups hg
  have hlog : ∀ e ∈ (run Registry.builtin grid items scope).1.log, e.HasLines :=
    (Item.keeps_compileCells rfl hitems h grid.cells ⟨scope, []⟩ hscope).1
  rw [hrules, List.forall_mem_map]
  intro rule hrule
  obtain ⟨e, he, hrule⟩ := List.mem_flatMap.mp hrule
  have hlines := hlog e he
  match e with
  | .keyframes .. | .rules _ (.host _) _ => simp [Entry.rulesFor] at hrule
  | .rules cell' (.cell suffix') rules =>
    simp only [Entry.rulesFor] at hrule
    split at hrule
    · exact hlines rule hrule
    · cases hrule

end Compilation

/-- The lines of joined texts are the texts exactly if each of them is a line. -/
theorem Text.pieces_lines_iff {ts : List String} (hne : ts ≠ []) :
    Text.pieces (· == '\n') ("\n".intercalate ts) = ts ↔ ∀ t ∈ ts, IsLine t := by
  constructor
  · intro hpieces t ht hnewline
    rw [← hpieces] at ht
    simpa using (Text.mem_pieces ht _ hnewline).1
  · intro hlines
    obtain ⟨t, rest, rfl⟩ := List.exists_cons_of_ne_nil hne
    have hchars : ∀ u ∈ t :: rest, ∀ c ∈ u.toList, (c == '\n') = false := by
      intro u hu c hc
      rw [beq_eq_false_iff_ne]
      rintro rfl
      exact hlines u hu hc
    have hpieces : Text.pieces (· == '\n') ("\n".intercalate (t :: rest)) =
        t :: rest.map ("" ++ ·) :=
      Text.pieces_intercalate rfl (by decide) (by simp) hchars
    simpa using hpieces

namespace Compiler

/-- One group on a line: a source that can be read is compiled, and its cells have no text exactly
if they have no group. Otherwise the lines of the text are the groups exactly if no rule has a line
break; and none has one if there is none in the texts that calls in the source may choose. -/
theorem cells_lines {source : String} {items : List Item} (hparse : parse source = .ok items)
    (seed : UInt64) (capacity : Option Nat) (grid : Grid) :
    let c := ofSeed seed capacity ".cell"
    let groups := (Compilation.run c.registry grid items
      ⟨c.memo, Words.ofSeed c.seed⟩).1.cellGroups ".cell"
    ∃ output, (c.compile source grid).1 = .ok output ∧
      (output.stylesheets.cells = "" ↔ groups = []) ∧
      (groups ≠ [] →
        (Text.pieces (· == '\n') output.stylesheets.cells = groups.map RuleGroup.text ↔
          ∀ g ∈ groups, ∀ rule ∈ g.rules, IsLine rule)) ∧
      ((∀ s ∈ Item.passedAll items, IsLine s) → ∀ g ∈ groups, ∀ rule ∈ g.rules, IsLine rule) := by
  intro c groups
  have hitems := Item.forall_tidy_of_parse hparse
  have hcompile : (c.compile source grid).1 = .ok ((Compilation.run c.registry grid items
      ⟨c.memo, Words.ofSeed c.seed⟩).1.output ".cell") := by
    simp only [compile, hparse, generate_eq]
    rfl
  refine ⟨_, hcompile, ?_, ?_, ?_⟩
  · rw [Compilation.cells_output]
    constructor
    · intro hempty
      by_contra hne
      have hlines : groups.map RuleGroup.text ≠ [] := by simpa using hne
      apply Text.intercalate_ne_empty "\n" hlines _ hempty
      exact List.forall_mem_map.mpr fun g _ => g.text_ne_empty
    · intro hnil
      have hgroups : groups.map RuleGroup.text = [] := by rw [hnil, List.map_nil]
      exact congrArg ("\n".intercalate ·) hgroups
  · intro hne
    rw [Compilation.cells_output, Text.pieces_lines_iff (by simpa using hne), List.forall_mem_map]
    refine forall₂_congr fun g hg => ?_
    rw [RuleGroup.isLine_text_iff]
    exact and_iff_right (Compilation.isLine_of_mem_cellGroups hitems hg)
  · intro h g hg
    refine Compilation.isLine_of_mem_rules hitems h ?_ hg
    exact fun e he => absurd he List.not_mem_nil

/-- Parts with a choice, whose rules are on lines of their own. -/
theorem cells_lines_pick :
    let items : List Item := [.declaration ⟨"width", [.text "1px"]⟩,
      .pseudo ⟨0, ":hover", [⟨"color", [.call "pick" [[.text "red"], [.text "blue"]]]⟩]⟩]
    let c := ofSeed 0 none ".cell"
    let groups := (Compilation.run c.registry (Grid.ofExtents 1 2) items
      ⟨c.memo, Words.ofSeed c.seed⟩).1.cellGroups ".cell"
    let source := "width: 1px; :hover \x7b color: @pick(red, blue) \x7d"
    parse source = .ok items ∧ groups.length = 4 ∧
      ∃ output, (c.compile source (Grid.ofExtents 1 2)).1 = .ok output ∧
        Text.pieces (· == '\n') output.stylesheets.cells = groups.map RuleGroup.text := by
  intro items c groups source
  have hparse : parse source = .ok items := by
    show parse "width: 1px; :hover \x7b color: @pick(red, blue) \x7d" = .ok items
    rfl
  have hlength : groups.length = 4 := by decide +kernel
  have hne : groups ≠ [] := List.ne_nil_of_length_eq_add_one hlength
  have hpassed : ∀ s ∈ Item.passedAll items, IsLine s := by decide
  obtain ⟨output, hcompile, -, hpieces, hlines⟩ := cells_lines hparse 0 none (Grid.ofExtents 1 2)
  exact ⟨hparse, hlength, output, hcompile, (hpieces hne).mpr (hlines hpassed)⟩

/-- A choice with a line break: one group, on two lines. -/
theorem cells_lines_break :
    let c := ofSeed 0 none ".cell"
    let items : List Item := [.declaration ⟨"a", [.call "pick" [[.text "x\ny"]]]⟩]
    let groups := (Compilation.run c.registry .single items
      ⟨c.memo, Words.ofSeed c.seed⟩).1.cellGroups ".cell"
    parse "a: @pick(x\ny);" = .ok items ∧
      groups.map RuleGroup.text = [".cell:nth-of-type(1) \x7b a: x\ny; \x7d"] ∧
      Text.pieces (· == '\n') (c.generate items .single).1.stylesheets.cells =
        [".cell:nth-of-type(1) \x7b a: x", "y; \x7d"] := by
  intro c items groups
  refine ⟨rfl, ?_, ?_⟩
  · decide +kernel
  · decide +kernel

end Compiler

end GridCss

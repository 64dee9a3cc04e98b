import GridCss.Proofs.HostBlocks
import GridCss.Proofs.KeyframesCopies

/-!
# The features that styles use

The flags of a compilation tell whether transitions and animations are among its rules. A rule keeps
the property of the declaration that it is compiled from, so that flags can be read off what the
cells reach: declarations, pseudo blocks for the host or not, and the first keyframes of every name,
whose steps are compiled last. How often a host block is reached and how many copies of keyframes
are made does not matter.
-/

namespace GridCss

namespace Property

theorem isTransition_iff {property : String} :
    isTransition property = true ↔ property = "transition" := beq_iff_eq

theorem isAnimation_iff {property : String} :
    isAnimation property = true ↔ property = "animation" ∨ property = "animation-name" := by
  simp [isAnimation]

end Property

variable {k : Context} {cell : Cell}

namespace Visit

/-- In the course of visits a declaration is used: it is reached itself, or its pseudo block is, or
it stands in a step of keyframes that are the first of their name to be reached. -/
inductive Uses (visits : List Visit) (d : Declaration) : Prop
  | declaration {v : Visit} (hv : v ∈ visits) (hitem : v.item = .declaration d)
  | pseudo {v : Visit} {b : PseudoBlock} (hv : v ∈ visits) (hitem : v.item = .pseudo b)
    (hd : d ∈ b.declarations)
  | keyframes {before after : List Visit} {v : Visit} {block : Keyframes} {step : KeyframeStep}
    (hvisits : visits = before ++ v :: after) (hitem : v.item = .keyframes block)
    (hfirst : ∀ u ∈ before, ∀ block', u.item = .keyframes block' → block'.name ≠ block.name)
    (hstep : step ∈ block.steps) (hd : d ∈ step.declarations)

/-- Keyframes are the first of their name if no visit before has reached others of that name. -/
theorem mem_firstKeyframes {visits : List Visit} {x : Cell × Keyframes} :
    x ∈ firstKeyframes visits ↔
      ∃ before v after, visits = before ++ v :: after ∧ v.item = .keyframes x.2 ∧ v.cell = x.1 ∧
        ∀ u ∈ before, ∀ block, u.item = .keyframes block → block.name ≠ x.2.name := by
  induction visits with
  | nil => simp [firstKeyframes]
  | cons w rest ih =>
    have hcons : x ∈ firstKeyframes (w :: rest) ↔ w.item = .keyframes x.2 ∧ w.cell = x.1 ∨
        x ∈ firstKeyframes rest ∧ ∀ block, w.item = .keyframes block → block.name ≠ x.2.name := by
      obtain ⟨cell, item, p⟩ := w
      cases item with
      | keyframes block =>
        simp only [firstKeyframes, List.mem_cons, List.mem_filter, bne_iff_ne, Prod.ext_iff,
          Item.keyframes.injEq, forall_eq']
        grind
      | declaration | pseudo | conditional | comment => simp [firstKeyframes]
    rw [hcons, ih]
    constructor
    · rintro (⟨hitem, hcell⟩ | ⟨⟨before, v, after, rfl, hitem, hcell, hfirst⟩, hw⟩)
      · exact ⟨[], w, rest, rfl, hitem, hcell, by simp⟩
      · exact ⟨w :: before, v, after, rfl, hitem, hcell, List.forall_mem_cons.mpr ⟨hw, hfirst⟩⟩
    · rintro ⟨before, v, after, hsplit, hitem, hcell, hfirst⟩
      cases before with
      | nil =>
        obtain ⟨rfl, -⟩ := List.cons.inj hsplit
        exact .inl ⟨hitem, hcell⟩
      | cons u before =>
        obtain ⟨rfl, rfl⟩ := List.cons.inj hsplit
        rw [List.forall_mem_cons] at hfirst
        exact .inr ⟨⟨before, v, after, rfl, hitem, hcell, hfirst.2⟩, hfirst.1⟩

theorem mem_declarations {before : List Visit} {v : Visit} {d : Declaration}
    (h : d ∈ v.declarations before) :
    v.item = .declaration d ∨ ∃ b, v.item = .pseudo b ∧ d ∈ b.declarations := by
  unfold declarations at h
  split at h
  · next d' hitem =>
    rw [List.mem_singleton.mp h]
    exact .inl hitem
  · next b hitem =>
    split at h
    · exact absurd h List.not_mem_nil
    · exact .inr ⟨b, hitem, h⟩
  · exact absurd h List.not_mem_nil

end Visit

section

variable (k) (items : List Item) (cells : List Cell) (scope : Scope)

/-- The properties of rules in the log are those of declarations that are compiled. -/
theorem Item.any_allRules_log (p : String → Bool) :
    ((Item.compileCells k items cells { scope := scope }).1.flatMap Entry.allRules).any
        (p ·.property) = true ↔
      ∃ cell d, Visit.Compiled (Item.visitCells k items cells { scope := scope }) cell d ∧
        p d.property = true := by
  rw [List.any_eq_true]
  constructor
  · rintro ⟨rule, hrule, hp⟩
    obtain ⟨e, he, hrule⟩ := List.mem_flatMap.mp hrule
    cases e with
    | keyframes cell block => exact absurd hrule List.not_mem_nil
    | rules cell target rules =>
      obtain ⟨d, hd, scope', rfl⟩ := Item.compiled_of_mem_log k items cells scope he hrule
      exact ⟨cell, d, hd, hp⟩
  · rintro ⟨cell, d, hd, hp⟩
    obtain ⟨target, rules, he, rule, hrule, heq⟩ := Item.mem_log_of_compiled k items cells scope hd
    exact ⟨rule, List.mem_flatMap.mpr ⟨_, he, hrule⟩, heq ▸ hp⟩

end

namespace Visit

/-- All declarations of a block are compiled if nothing before has reached the same host block. -/
theorem declarations_of_pseudo {before : List Visit} {v : Visit} {b : PseudoBlock}
    (hitem : v.item = .pseudo b)
    (hbefore : ∀ u ∈ before, ∀ id, u.host? = some id → v.host? ≠ some id) :
    v.declarations before = b.declarations := by
  simp only [declarations, hitem]
  refine if_neg ?_
  simp only [Bool.and_eq_true, Option.isSome_iff_exists, List.any_eq_true, beq_iff_eq]
  rintro ⟨⟨id, hid⟩, u, hu, huv⟩
  exact hbefore u hu id (huv.trans hid) hid

section

-- Blocks are told apart by their numbers.
variable {visits : List Visit} (hids : ∀ h ∈ visits.filterMap hostVisit?,
  ∀ h' ∈ visits.filterMap hostVisit?, h.block.id = h'.block.id → h.block = h'.block)
include hids

theorem exists_first_host {v : Visit} {h : HostVisit} (hv : v ∈ visits)
    (hhost : v.hostVisit? = some h) :
    ∃ before u after, visits = before ++ u :: after ∧ u.item = .pseudo h.block ∧
      ∀ w ∈ before, ∀ id, w.host? = some id → u.host? ≠ some id := by
  have hid : v.host? = some h.block.id := by rw [host?_eq, hhost, Option.map_some]
  obtain ⟨u, hfind⟩ : ∃ u, visits.find? (·.host? == some h.block.id) = some u := by
    rw [← Option.isSome_iff_exists, List.find?_isSome]
    exact ⟨v, hv, beq_iff_eq.mpr hid⟩
  obtain ⟨hu, before, after, rfl, hbefore⟩ := List.find?_eq_some_iff_append.mp hfind
  rw [beq_iff_eq, host?_eq, Option.map_eq_some_iff] at hu
  obtain ⟨h', hhost', hid'⟩ := hu
  have hblock : h'.block = h.block :=
    hids h' (List.mem_filterMap.mpr ⟨u, by simp, hhost'⟩) h (List.mem_filterMap.mpr ⟨v, hv, hhost⟩)
      hid'
  have hitem : u.item = .pseudo h.block := hblock ▸ (hostVisit?_eq_some hhost').1
  refine ⟨before, u, after, rfl, hitem, fun w hw id hwid huid => ?_⟩
  rw [host?_eq, hhost', Option.map_some, hid'] at huid
  have hw' := hbefore w hw
  rw [hwid, huid] at hw'
  simp at hw'

theorem exists_compiled {v : Visit} {d : Declaration} (hv : v ∈ visits)
    (hd : v.item = .declaration d ∨ ∃ b, v.item = .pseudo b ∧ d ∈ b.declarations) :
    ∃ cell, Compiled visits cell d := by
  rcases hd with hitem | ⟨b, hitem, hd⟩
  · obtain ⟨before, after, hsplit⟩ := List.append_of_mem hv
    refine ⟨v.cell, before, v, after, hsplit, rfl, ?_⟩
    simp [declarations, hitem]
  · cases hhost : v.hostVisit? with
    | none =>
      obtain ⟨before, after, hsplit⟩ := List.append_of_mem hv
      refine ⟨v.cell, before, v, after, hsplit, rfl, ?_⟩
      rw [declarations_of_pseudo hitem]
      · exact hd
      · intro u _ id _
        simp [host?_eq, hhost]
    | some h =>
      have hblock : b = h.block :=
        Item.pseudo.inj (hitem.symm.trans (hostVisit?_eq_some hhost).1)
      obtain ⟨before, u, after, hsplit, hfirst, hbefore⟩ := exists_first_host hids hv hhost
      refine ⟨u.cell, before, u, after, hsplit, rfl, ?_⟩
      rw [declarations_of_pseudo hfirst hbefore, ← hblock]
      exact hd

end

end Visit

/-- Blocks that are numbered in document order are told apart by their numbers. -/
theorem Item.hostVisits_blocks {items : List Item} {cells : List Cell} {p : Pass}
    (hids : Item.blockIds items = List.range (Item.blocksAll items).length) :
    ∀ h ∈ (Item.visitCells k items cells p).filterMap Visit.hostVisit?,
      ∀ h' ∈ (Item.visitCells k items cells p).filterMap Visit.hostVisit?,
        h.block.id = h'.block.id → h.block = h'.block := by
  intro h hh h' hh' hid
  have hget := Item.getElem?_of_blockIds hids (Item.block_of_mem_hostVisits hh).2
  rw [hid, Item.getElem?_of_blockIds hids (Item.block_of_mem_hostVisits hh').2] at hget
  exact (Option.some.inj hget).symm

theorem KeyframeStep.any_compileAll (p : String → Bool) (steps : List KeyframeStep)
    (scope : Scope) :
    ((KeyframeStep.compileAll k cell steps scope).1.flatMap Prod.snd).any (p ·.property) =
      steps.any (·.declarations.any (p ·.property)) := by
  induction steps generalizing scope with
  | nil => rfl
  | cons step rest ih =>
    have hcons : (KeyframeStep.compileAll k cell (step :: rest) scope).1 =
        (step.selector, (Declaration.compileAll k cell step.declarations scope).1) ::
          (KeyframeStep.compileAll k cell rest
            (Declaration.compileAll k cell step.declarations scope).2).1 := rfl
    rw [hcons, List.flatMap_cons, List.any_append, ih, Declaration.any_compileAll, List.any_cons]

namespace KeyframesCopy

/-- Whatever cell a copy is for, its rules have the properties of the declarations in its block. -/
theorem any_allRules_mapM (p : String → Bool) (copies : List KeyframesCopy) (scope : Scope) :
    ((copies.mapM (compile k) scope).1.flatMap KeyframesRules.allRules).any (p ·.property) =
      copies.any (·.block.steps.any (·.declarations.any (p ·.property))) := by
  induction copies generalizing scope with
  | nil => rfl
  | cons c rest ih =>
    have hcons : ((c :: rest).mapM (compile k) scope).1 =
        (compile k c scope).1 :: (rest.mapM (compile k) (compile k c scope).2).1 := by
      rw [List.mapM_cons]
      rfl
    have hcopy : (compile k c scope).1.allRules =
        (KeyframeStep.compileAll k c.cell c.block.steps scope).1.flatMap Prod.snd := by
      rw [compile_eq]
      rfl
    rw [hcons, List.flatMap_cons, List.any_append, ih, hcopy, KeyframeStep.any_compileAll,
      List.any_cons]

theorem any_ofBlock (p : Keyframes → Bool) (renames : Bool) (animated : List Cell)
    (x : Cell × Keyframes) : (ofBlock renames animated x).any (p ·.block) = p x.2 := by
  rw [ofBlock, List.any_cons, List.any_map]
  cases hp : p x.2 <;> simp [hp]

end KeyframesCopy

namespace Compilation

section

variable (registry : Registry) (grid : Grid) (items : List Item) (scope : Scope)

theorem any_allRules_keyframes (p : String → Bool) :
    ((run registry grid items scope).1.keyframes.flatMap KeyframesRules.allRules).any
        (p ·.property) =
      (Visit.firstKeyframes (Item.visitCells (context registry grid items) items grid.cells
        { scope := scope })).any (·.2.steps.any (·.declarations.any (p ·.property))) := by
  rw [keyframes_run, KeyframesCopy.any_allRules_mapM, List.any_flatMap]
  congr 1
  funext x
  exact KeyframesCopy.any_ofBlock (·.steps.any (·.declarations.any (p ·.property))) _ _ x

/-- Where blocks are numbered in document order, the properties of all rules are those of the
declarations that are used. -/
theorem any_allRules_iff (hids : Item.blockIds items = List.range (Item.blocksAll items).length)
    (p : String → Bool) :
    (run registry grid items scope).1.allRules.any (p ·.property) = true ↔
      ∃ d, Visit.Uses (Item.visitCells (context registry grid items) items grid.cells
        { scope := scope }) d ∧ p d.property = true := by
  have hblocks := @Item.hostVisits_blocks (context registry grid items) items grid.cells
    { scope := scope } hids
  rw [allRules, List.any_append, Bool.or_eq_true, any_allRules_keyframes, run_eq,
    Item.any_allRules_log]
  constructor
  · rintro (⟨cell, d, ⟨before, v, after, hsplit, -, hd⟩, hp⟩ | hkeyframes)
    · have hv : v ∈ Item.visitCells (context registry grid items) items grid.cells
          { scope := scope } := by simp [hsplit]
      rcases Visit.mem_declarations hd with hitem | ⟨b, hitem, hd⟩
      · exact ⟨d, .declaration hv hitem, hp⟩
      · exact ⟨d, .pseudo hv hitem hd, hp⟩
    · simp only [List.any_eq_true] at hkeyframes
      obtain ⟨x, hx, step, hstep, d, hd, hp⟩ := hkeyframes
      obtain ⟨before, v, after, hsplit, hitem, -, hfirst⟩ := Visit.mem_firstKeyframes.mp hx
      exact ⟨d, .keyframes hsplit hitem hfirst hstep hd, hp⟩
  · rintro ⟨d, huses, hp⟩
    cases huses with
    | declaration hv hitem =>
      obtain ⟨cell, hd⟩ := Visit.exists_compiled hblocks hv (.inl hitem)
      exact .inl ⟨cell, d, hd, hp⟩
    | pseudo hv hitem hd =>
      obtain ⟨cell, hd⟩ := Visit.exists_compiled hblocks hv (.inr ⟨_, hitem, hd⟩)
      exact .inl ⟨cell, d, hd, hp⟩
    | @keyframes before after v block step hsplit hitem hfirst hstep hd =>
      right
      simp only [List.any_eq_true]
      exact ⟨(v.cell, block), Visit.mem_firstKeyframes.mpr
        ⟨before, v, after, hsplit, hitem, rfl, hfirst⟩, step, hstep, d, hd, hp⟩

end

/-- Flags report what is compiled. In a source that can be read, a transition or an animation is
reported if and only if it is declared in what some cell reaches: in a declaration, in a pseudo
block, or in a step of keyframes that are the first of their name. -/
theorem flags_iff_uses {source : String} {items : List Item} (hparse : parse source = .ok items)
    (registry : Registry) (grid : Grid) (scope : Scope) (cellSelector : String) :
    let visits := Item.visitCells (context registry grid items) items grid.cells { scope := scope }
    let flags := ((run registry grid items scope).1.output cellSelector).flags
    (flags.transition = true ↔ ∃ d, Visit.Uses visits d ∧ d.property = "transition") ∧
    (flags.animation = true ↔
      ∃ d, Visit.Uses visits d ∧ (d.property = "animation" ∨ d.property = "animation-name")) := by
  intro visits flags
  have hids := Item.blockIds_of_parse hparse
  constructor
  · have h := any_allRules_iff registry grid items scope hids Property.isTransition
    simp only [Property.isTransition_iff] at h
    exact h
  · have h := any_allRules_iff registry grid items scope hids Property.isAnimation
    simp only [Property.isAnimation_iff] at h
    exact h

/-- The first keyframes of a name have a transition; what has an animation comes second or is never
reached. -/
theorem flags_iff_uses_transition :
    let items : List Item :=
      [.conditional "odd" [] [.keyframes ⟨"a", [⟨"to", [⟨"transition", [.text "b"]⟩]⟩]⟩],
        .keyframes ⟨"a", [⟨"to", [⟨"animation", [.text "c"]⟩]⟩]⟩,
        .conditional "d" [] [.declaration ⟨"animation-name", [.text "a"]⟩]]
    let grid := Grid.ofExtents 1 2
    let scope : Scope := ⟨{}, Words.ofSeed 0⟩
    let visits :=
      Item.visitCells (context Registry.builtin grid items) items grid.cells { scope := scope }
    parse ("@odd\x7b@keyframes a\x7bto\x7btransition:b\x7d\x7d\x7d" ++
      "@keyframes a\x7bto\x7banimation:c\x7d\x7d@d\x7banimation-name:a\x7d") = .ok items ∧
    (∃ d, Visit.Uses visits d ∧ d.property = "transition") ∧
    ¬ ∃ d, Visit.Uses visits d ∧ (d.property = "animation" ∨ d.property = "animation-name") := by
  intro items grid scope visits
  have hparse : parse ("@odd\x7b@keyframes a\x7bto\x7btransition:b\x7d\x7d\x7d" ++
      "@keyframes a\x7bto\x7banimation:c\x7d\x7d@d\x7banimation-name:a\x7d") = .ok items := rfl
  have hflags : ((run Registry.builtin grid items scope).1.output ".cell").flags =
      ⟨true, false⟩ := by decide +kernel
  obtain ⟨htransition, hanimation⟩ := flags_iff_uses hparse Registry.builtin grid scope ".cell"
  rw [hflags] at htransition hanimation
  exact ⟨hparse, htransition.mp rfl, fun h => Bool.false_ne_true (hanimation.mpr h)⟩

end Compilation

end GridCss

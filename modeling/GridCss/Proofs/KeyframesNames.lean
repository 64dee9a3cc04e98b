import Mathlib.Data.List.Perm.Basic
import GridCss.Compiler
import GridCss.Proofs.KeyframesCopies

/-!
# The names of keyframes

Keyframes are compiled under their own names, each once, and under those names with the numbers of
cells. Copies never share a name with each other, since the number stands behind the last hyphen.
But a block may have been given the name of a copy, as `a-1` next to `a`; that is the only way in
which two compiled blocks come to have one name.
-/

namespace GridCss

/-- The number of a cell is what stands behind the last hyphen. -/
theorem Rule.cellName_inj {name name' : String} {i j : Nat}
    (h : cellName name i = cellName name' j) : name = name' ∧ i = j := by
  have hlist := congrArg (fun s => s.toList.reverse) h
  simp only [toList_cellName, List.reverse_append, List.reverse_cons, List.append_assoc,
    List.singleton_append] at hlist
  have hhyphen : ∀ n, ∀ c ∈ (Nat.toDigits 10 n).reverse, (c != '-') = true := by
    intro n c hc
    have hdigit := Nat.isDigit_of_mem_toDigits (by decide) (by decide) (List.mem_reverse.mp hc)
    rw [bne_iff_ne]
    rintro rfl
    exact absurd hdigit (by decide)
  have hdigits := congrArg (List.takeWhile (· != '-')) hlist
  rw [List.takeWhile_append_of_pos (hhyphen i), List.takeWhile_append_of_pos (hhyphen j)] at hdigits
  simp only [bne_self_eq_false, Bool.false_eq_true, not_false_eq_true, List.takeWhile_cons_of_neg,
    List.append_nil, List.reverse_inj] at hdigits
  have hij : i = j := by
    rw [← @Nat.ofDigitChars_ten_toDigits i, hdigits, Nat.ofDigitChars_ten_toDigits]
  rw [hij, List.append_cancel_left_eq, List.cons.injEq, List.reverse_inj] at hlist
  exact ⟨String.toList_inj.mp hlist.2, hij⟩

theorem Visit.firstKeyframes_names_nodup (visits : List Visit) :
    ((firstKeyframes visits).map (·.2.name)).Nodup := by
  induction visits with
  | nil => exact .nil
  | cons v rest ih =>
    obtain ⟨cell, item, p⟩ := v
    cases item with
    | keyframes block =>
      rw [firstKeyframes, List.map_cons, List.nodup_cons]
      refine ⟨?_, ih.sublist (List.filter_sublist.map _)⟩
      intro hmem
      obtain ⟨x, hx, hname⟩ := List.mem_map.mp hmem
      have hne := (List.mem_filter.mp hx).2
      simp [hname] at hne
    | declaration | pseudo | conditional | comment => exact ih

namespace KeyframesCopy

variable {k : Context} {blocks : List (Cell × Keyframes)} {animated : List Cell}

def cellNames (blocks : List (Cell × Keyframes)) (animated : List Cell) : List String :=
  blocks.flatMap fun x => animated.map fun cell => Rule.cellName x.2.name cell.index

theorem names_perm (blocks : List (Cell × Keyframes)) (animated : List Cell) :
    ((blocks.flatMap (ofBlock true animated)).map name).Perm
      (blocks.map (·.2.name) ++ cellNames blocks animated) := by
  have hnames : (blocks.flatMap (ofBlock true animated)).map name =
      blocks.flatMap fun x =>
        x.2.name :: animated.map fun cell => Rule.cellName x.2.name cell.index := by
    simp only [List.map_flatMap, ofBlock, List.map_cons, if_true, List.map_map]
    rfl
  rw [hnames]
  exact (List.map_append_flatMap_perm _ _ _).symm

theorem names_without_copies (blocks : List (Cell × Keyframes)) (animated : List Cell) :
    (blocks.flatMap (ofBlock false animated)).map name = blocks.map (·.2.name) := by
  rw [List.map_flatMap, List.map_eq_flatMap]
  rfl

theorem cellNames_nodup (hblocks : (blocks.map (·.2.name)).Nodup)
    (hcells : animated.Pairwise fun a b => a.index < b.index) :
    (cellNames blocks animated).Nodup := by
  unfold cellNames
  rw [List.nodup_flatMap]
  constructor
  · intro x _
    refine List.pairwise_map.mpr (hcells.imp fun hlt heq => ?_)
    exact Nat.ne_of_lt hlt (Rule.cellName_inj heq).2
  · refine (List.pairwise_map.mp hblocks).imp fun hne name hx hy => ?_
    obtain ⟨a, -, rfl⟩ := List.mem_map.mp hx
    obtain ⟨b, -, heq⟩ := List.mem_map.mp hy
    exact hne (Rule.cellName_inj heq).1.symm

/-- All names differ if and only if no copy is named as a block. -/
theorem names_nodup_iff (hblocks : (blocks.map (·.2.name)).Nodup)
    (hcells : animated.Pairwise fun a b => a.index < b.index) :
    ((blocks.flatMap (ofBlock true animated)).map name).Nodup ↔
      ∀ name ∈ blocks.map (·.2.name), ∀ cell ∈ animated,
        Rule.cellName name cell.index ∉ blocks.map (·.2.name) := by
  rw [(names_perm blocks animated).nodup_iff, List.nodup_append]
  constructor
  · rintro ⟨-, -, hapart⟩ name hname cell hcell hmem
    obtain ⟨x, hx, rfl⟩ := List.mem_map.mp hname
    exact hapart _ hmem _ (List.mem_flatMap.mpr ⟨x, hx, List.mem_map_of_mem hcell⟩) rfl
  · intro h
    refine ⟨hblocks, cellNames_nodup hblocks hcells, fun name hname copied hcopied heq => ?_⟩
    obtain ⟨x, hx, hx'⟩ := List.mem_flatMap.mp hcopied
    obtain ⟨cell, hcell, rfl⟩ := List.mem_map.mp hx'
    exact h _ (List.mem_map_of_mem hx) cell hcell (heq ▸ hname)

/-- A copy that is not named as a block has its name for itself. -/
theorem count_cellName (hblocks : (blocks.map (·.2.name)).Nodup)
    (hcells : animated.Pairwise fun a b => a.index < b.index) {x : Cell × Keyframes} {cell : Cell}
    (hx : x ∈ blocks) (hcell : cell ∈ animated)
    (hfree : Rule.cellName x.2.name cell.index ∉ blocks.map (·.2.name)) :
    ((blocks.flatMap (ofBlock true animated)).map name).count
      (Rule.cellName x.2.name cell.index) = 1 := by
  have hmem : Rule.cellName x.2.name cell.index ∈ cellNames blocks animated :=
    List.mem_flatMap.mpr ⟨x, hx, List.mem_map_of_mem hcell⟩
  rw [(names_perm blocks animated).count_eq, List.count_append, List.count_eq_zero_of_not_mem hfree,
    List.count_eq_one_of_mem (cellNames_nodup hblocks hcells) hmem]

/-- What is compiled under a name that only one copy has. -/
theorem filter_mapM {copies : List KeyframesCopy} {c : KeyframesCopy} (hc : c ∈ copies)
    (hcount : (copies.map name).count c.name = 1) (scope : Scope) :
    ∃ scope', (copies.mapM (compile k) scope).1.filter (·.name == c.name) =
      [(c.compile k scope').1] := by
  obtain ⟨before, after, rfl⟩ := List.append_of_mem hc
  rw [List.map_append, List.map_cons, List.count_append, List.count_cons_self] at hcount
  have hnone : ∀ (others : List KeyframesCopy) (s : Scope), (others.map name).count c.name = 0 →
      (others.mapM (compile k) s).1.filter (·.name == c.name) = [] := by
    intro others s hzero
    rw [List.filter_eq_nil_iff]
    intro r hr heq
    have hname := List.mem_map_of_mem (f := KeyframesRules.name) hr
    rw [map_name_mapM, beq_iff_eq.mp heq] at hname
    exact List.count_eq_zero.mp hzero hname
  refine ⟨(before.mapM (compile k) scope).2, ?_⟩
  have hsplit : ((before ++ c :: after).mapM (compile k) scope).1 =
      (before.mapM (compile k) scope).1 ++ (c.compile k (before.mapM (compile k) scope).2).1 ::
        (after.mapM (compile k) (c.compile k (before.mapM (compile k) scope).2).2).1 := by
    rw [List.mapM_append, List.mapM_cons]
    rfl
  have hself : (c.compile k (before.mapM (compile k) scope).2).1.name = c.name := rfl
  rw [hsplit, List.filter_append, hnone before _ (by omega), List.nil_append,
    List.filter_cons_of_pos (by rw [hself, beq_self_eq_true]), hnone after _ (by omega)]

end KeyframesCopy

namespace Compilation

/-- Compiled keyframes have different names exactly if, where there are several cells, no block that
is reached has the name of the copy of one for a cell that animates something. A copy whose name is
not taken in this way is all that is found under it. -/
theorem keyframes_names_nodup_iff (registry : Registry) (grid : Grid) (items : List Item)
    (scope : Scope) :
    let k := context registry grid items
    let visits := Item.visitCells k items grid.cells { scope := scope }
    let reached := Visit.firstKeyframes visits
    let names := reached.map (·.2.name)
    let keyframes := (run registry grid items scope).1.keyframes
    ((keyframes.map KeyframesRules.name).Nodup ↔
      (1 < grid.count → ∀ name ∈ names, ∀ cell, Visit.Animated visits cell →
        Rule.cellName name cell.index ∉ names)) ∧
    (1 < grid.count → ∀ x ∈ reached, ∀ cell, Visit.Animated visits cell →
      Rule.cellName x.2.name cell.index ∉ names →
        ∃ scope', keyframes.filter (·.name == Rule.cellName x.2.name cell.index) =
          [(x.2.compileAs k (Rule.cellName x.2.name cell.index) cell scope').1]) := by
  intro k visits reached names keyframes
  have hblocks : names.Nodup := Visit.firstKeyframes_names_nodup visits
  have hcells : (Entry.animatedCells (run registry grid items scope).1.log).Pairwise fun a b =>
      a.index < b.index := Item.animatedCells_pairwise k items grid { scope := scope }
  have hanimated : ∀ cell,
      cell ∈ Entry.animatedCells (run registry grid items scope).1.log ↔
        Visit.Animated visits cell := fun cell => Item.mem_animatedCells k items grid.cells scope
  have hkeyframes := keyframes_run registry grid items scope
  constructor
  · simp only [keyframes, hkeyframes, KeyframesCopy.map_name_mapM, ← hanimated]
    by_cases hmany : 1 < grid.count
    · have hiff := KeyframesCopy.names_nodup_iff hblocks hcells
      rw [decide_eq_true hmany]
      exact ⟨fun h _ => hiff.mp h, fun h => hiff.mpr (h hmany)⟩
    · rw [decide_eq_false hmany, KeyframesCopy.names_without_copies]
      exact ⟨fun _ hmany' => absurd hmany' hmany, fun _ => hblocks⟩
  · intro hmany x hx cell hcell hfree
    have hmem := (hanimated cell).mpr hcell
    have hcount := KeyframesCopy.count_cellName hblocks hcells hx hmem hfree
    have hcopy : (⟨Rule.cellName x.2.name cell.index, cell, x.2⟩ : KeyframesCopy) ∈
        reached.flatMap (KeyframesCopy.ofBlock true (Entry.animatedCells
          (run registry grid items scope).1.log)) :=
      List.mem_flatMap.mpr ⟨x, hx, List.mem_cons_of_mem _ (List.mem_map_of_mem hmem)⟩
    simp only [keyframes, hkeyframes, decide_eq_true hmany]
    simpa only [KeyframesCopy.compile_eq] using KeyframesCopy.filter_mapM hcopy hcount _

/-- Two blocks are compiled under the name `a-1`: the copy of `a` for the first cell, and a block
that is called so. The rules of the first cell refer to the former. -/
theorem keyframes_names_not_nodup :
    let items : List Item :=
      [.declaration ⟨"animation", [.text "a"]⟩,
        .keyframes ⟨"a", [⟨"to", [⟨"x", [.text "1"]⟩]⟩]⟩,
        .keyframes ⟨"a-1", [⟨"to", [⟨"x", [.text "2"]⟩]⟩]⟩]
    let compiled := (run Registry.builtin (Grid.ofExtents 1 2) items ⟨{}, Words.ofSeed 0⟩).1
    parse "animation:a;@keyframes a\x7bto\x7bx:1\x7d\x7d@keyframes a-1\x7bto\x7bx:2\x7d\x7d" =
      .ok items ∧
    compiled.keyframes.map KeyframesRules.name = ["a", "a-1", "a-2", "a-1", "a-1-1", "a-1-2"] ∧
    ¬ (compiled.keyframes.map KeyframesRules.name).Nodup := by
  intro items compiled
  have hnames : compiled.keyframes.map KeyframesRules.name =
      ["a", "a-1", "a-2", "a-1", "a-1-1", "a-1-2"] := by
    decide +kernel
  refine ⟨rfl, hnames, ?_⟩
  rw [hnames]
  decide

end Compilation

end GridCss

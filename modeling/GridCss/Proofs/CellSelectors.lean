import GridCss.Proofs.HostBlocks
import GridCss.Proofs.Memoization

/-!
# The selector of a cell

Which selector stands for a cell plays no part while items are compiled; it is written in front of
the number of the cell when rules are filed. Selectors of cells are equal if and only if they have
the same number and the same suffix, and none of them is a selector of the host. Rules are therefore
grouped in the same way whatever stands for a cell, and only the selectors of the groups change.
-/

namespace GridCss

theorem Selector.ofCell_eq_iff {cellSelector : String} {i j : Nat} {a b : String} :
    ofCell cellSelector i a = ofCell cellSelector j b ↔ i = j ∧ a = b := by
  refine ⟨ofCell_inj, ?_⟩
  rintro ⟨rfl, rfl⟩
  rfl

/-- Two groups have the same rules for the same part of the same cell, under one selector of a cell
and another. -/
def RuleGroup.Renamed (s s' : String) (g g' : RuleGroup) : Prop :=
  ∃ index suffix, g.selector = Selector.ofCell s index suffix ∧
    g'.selector = Selector.ofCell s' index suffix ∧ g'.rules = g.rules

/-- The same of what is filed. -/
def Filing.Renamed (s s' : String) (f f' : Filing) : Prop :=
  ∃ index suffix, f.1 = Selector.ofCell s index suffix ∧ f'.1 = Selector.ofCell s' index suffix ∧
    f'.2 = f.2

section

variable {s s' : String}

theorem RuleGroup.fileInto_renamed {groups groups' : List RuleGroup}
    (h : List.Forall₂ (Renamed s s') groups groups') (index : Nat) (suffix : String)
    (rules : List String) :
    List.Forall₂ (Renamed s s') (fileInto (Selector.ofCell s index suffix) rules groups)
      (fileInto (Selector.ofCell s' index suffix) rules groups') := by
  induction h with
  | nil => exact .cons ⟨index, suffix, rfl, rfl, rfl⟩ .nil
  | @cons g g' groups groups' hg hgroups ih =>
    obtain ⟨i, a, hsel, hsel', hrules⟩ := hg
    simp only [fileInto, hsel, hsel', Selector.ofCell_eq_iff]
    -- Both sheets have the group in the same place.
    split
    · exact .cons ⟨i, a, rfl, rfl, by rw [hrules]⟩ hgroups
    · exact .cons ⟨i, a, hsel, hsel', hrules⟩ ih

theorem RuleSheet.extend_renamed {sheet sheet' : RuleSheet} {f f' : Filing}
    (h : List.Forall₂ (RuleGroup.Renamed s s') sheet.groups sheet'.groups)
    (hf : Filing.Renamed s s' f f') :
    List.Forall₂ (RuleGroup.Renamed s s') (sheet.extend f.1 f.2).groups
      (sheet'.extend f'.1 f'.2).groups := by
  obtain ⟨index, suffix, hsel, hsel', hrules⟩ := hf
  rw [hrules]
  by_cases hempty : f.2 = []
  · rw [hempty, extend_nil, extend_nil]
    exact h
  · rw [groups_extend _ _ hempty, groups_extend _ _ hempty, hsel, hsel']
    exact RuleGroup.fileInto_renamed h index suffix f.2

/-- Filing under other selectors of cells gives the same groups under these. -/
theorem RuleSheet.fileAll_renamed {sheet sheet' : RuleSheet} {filings filings' : List Filing}
    (h : List.Forall₂ (RuleGroup.Renamed s s') sheet.groups sheet'.groups)
    (hfilings : List.Forall₂ (Filing.Renamed s s') filings filings') :
    List.Forall₂ (RuleGroup.Renamed s s') (sheet.fileAll filings).groups
      (sheet'.fileAll filings').groups := by
  induction hfilings generalizing sheet sheet' with
  | nil => exact h
  | cons hf _ ih => exact ih (extend_renamed h hf)

theorem Entry.cellFilings_renamed (s s' : String) (log : List Entry) :
    List.Forall₂ (Filing.Renamed s s') (log.filterMap (cellFiling? s))
      (log.filterMap (cellFiling? s')) := by
  induction log with
  | nil => exact .nil
  | cons e log ih =>
    cases e with
    | keyframes cell block => simpa [cellFiling?, List.filterMap_cons] using ih
    | rules cell target rs =>
      cases target with
      | host selector => simpa [cellFiling?, List.filterMap_cons] using ih
      | cell suffix => exact .cons ⟨cell.index, suffix, rfl, rfl, rfl⟩ ih

end

namespace Compilation

theorem flags_output (c : Compilation) (cellSelector : String) :
    (c.output cellSelector).flags = c.flags := rfl

theorem keyframes_output (c : Compilation) (cellSelector : String) :
    (c.output cellSelector).stylesheets.keyframes =
      "\n".intercalate (c.keyframes.map KeyframesRules.text) := rfl

variable (registry : Registry) (grid : Grid) (items : List Item) (scope : Scope) {s s' : String}

theorem cellGroups_renamed (hs : Selector.isHost s = false) (hs' : Selector.isHost s' = false) :
    List.Forall₂ (RuleGroup.Renamed s s') ((run registry grid items scope).1.cellGroups s)
      ((run registry grid items scope).1.cellGroups s') := by
  simp only [cellGroups, run_eq]
  rw [Entry.groups_sheet hs Item.isHost_of_mem_compileCells,
    Entry.groups_sheet hs' Item.isHost_of_mem_compileCells]
  exact RuleSheet.fileAll_renamed .nil (Entry.cellFilings_renamed s s' _)

theorem hostGroups_cellSelector (hs : Selector.isHost s = false)
    (hs' : Selector.isHost s' = false) :
    (run registry grid items scope).1.hostGroups s =
      (run registry grid items scope).1.hostGroups s' := by
  simp only [hostGroups, run_eq]
  rw [Entry.hostGroups_sheet hs Item.isHost_of_mem_compileCells,
    Entry.hostGroups_sheet hs' Item.isHost_of_mem_compileCells]

end Compilation

namespace Compiler

/-- The selector of a cell only renames. With two of them, neither of which is for the host, a
compiler has the same flags, styles of the host, keyframes and memo, and the groups of the cells are
the same one by one, each under the selector of its part of its cell. -/
theorem generate_cellSelector (c : Compiler) (items : List Item) (grid : Grid) {s s' : String}
    (hs : Selector.isHost s = false) (hs' : Selector.isHost s' = false) :
    let styled (selector : String) : Output × Compiler :=
      { c with cellSelector := selector }.generate items grid
    let compiled := (Compilation.run c.registry grid items ⟨c.memo, Words.ofSeed c.seed⟩).1
    (styled s).1.flags = (styled s').1.flags ∧
    (styled s).1.stylesheets.host = (styled s').1.stylesheets.host ∧
    (styled s).1.stylesheets.keyframes = (styled s').1.stylesheets.keyframes ∧
    (styled s).2.memo = (styled s').2.memo ∧
    (∀ selector, (styled selector).1.stylesheets.cells =
      "\n".intercalate ((compiled.cellGroups selector).map RuleGroup.text)) ∧
    List.Forall₂ (RuleGroup.Renamed s s') (compiled.cellGroups s) (compiled.cellGroups s') := by
  intro styled compiled
  have hstyled : ∀ selector, (styled selector).1 = compiled.output selector ∧
      (styled selector).2.memo = (Compilation.run c.registry grid items
        ⟨c.memo, Words.ofSeed c.seed⟩).2.memo := by
    intro selector
    simp only [styled, compiled, generate_eq, and_self]
  have hhost : compiled.hostGroups s = compiled.hostGroups s' :=
    Compilation.hostGroups_cellSelector c.registry grid items _ hs hs'
  simp only [hstyled, Compilation.flags_output, Compilation.host_output,
    Compilation.keyframes_output, hhost, Compilation.cells_output, true_and, implies_true]
  exact Compilation.cellGroups_renamed c.registry grid items _ hs hs'

/-- A colour of each cell, a part of every other cell and the host, for classes and for elements. -/
theorem generate_cellSelector_hover :
    let items : List Item :=
      [.declaration ⟨"color", [.call "pick" [[.text "red"], [.text "blue"]]]⟩,
        .conditional "even" [] [.pseudo ⟨0, ":hover", [⟨"order", [.call "index" []]⟩]⟩],
        .pseudo ⟨1, ":doodle", [⟨"gap", [.text "1px"]⟩]⟩]
    let c : Compiler := { seed := 7 }
    let grid := Grid.ofExtents 2 2
    let compiled := (Compilation.run c.registry grid items ⟨c.memo, Words.ofSeed c.seed⟩).1
    Selector.isHost ".cell" = false ∧ Selector.isHost ":is(i, b)" = false ∧
    List.Forall₂ (RuleGroup.Renamed ".cell" ":is(i, b)") (compiled.cellGroups ".cell")
      (compiled.cellGroups ":is(i, b)") := by
  intro items c grid compiled
  have hs : Selector.isHost ".cell" = false := by decide
  have hs' : Selector.isHost ":is(i, b)" = false := by decide
  exact ⟨hs, hs', (generate_cellSelector c items grid hs hs').2.2.2.2.2⟩

end Compiler

end GridCss

import Mathlib.Data.List.Induction
import Mathlib.Data.List.Nodup
import GridCss.Proofs.FiledRules

/-!
# Sheets as ordered multimaps

A sheet maps selectors to the rules filed under them, and remembers in which order the selectors
came. A sheet may keep an index of the places of its groups. The index is then right after every
change, so that the group of a selector is always found at its place, and both kinds of sheet agree.
-/

namespace GridCss

/-- A sheet with the places of its groups. -/
structure IndexedSheet extends RuleSheet where
  index : Std.HashMap String Nat := ∅

namespace IndexedSheet

/-- The place of the group of a selector, and the sheet with an empty group for it if there was
none. -/
def locate (s : IndexedSheet) (selector : String) : Nat × IndexedSheet :=
  match s.index[selector]? with
  | some i => (i, s)
  | none =>
    (s.groups.length,
      { groups := s.groups ++ [⟨selector, []⟩]
        index := s.index.insert selector s.groups.length })

/-- Files rules under a selector. There is no result if no group stands at the place that the index
gives. -/
def extend? (s : IndexedSheet) (selector : String) (rules : List String) : Option IndexedSheet :=
  if rules.isEmpty then some s
  else
    let (i, s) := s.locate selector
    if i < s.groups.length then
      some { s with groups := s.groups.modify i fun g => { g with rules := g.rules ++ rules } }
    else none

end IndexedSheet

namespace RuleSheet

/-- What can be done to a sheet. -/
inductive Change where
  | push (selector rule : String)
  | extend (selector : String) (rules : List String)

/-- The selector of a change and the rules it brings. -/
def Change.filing : Change → Filing
  | .push selector rule => (selector, [rule])
  | .extend selector rules => (selector, rules)

def change (s : RuleSheet) : Change → RuleSheet
  | .push selector rule => s.push selector rule
  | .extend selector rules => s.extend selector rules

def changeAll (s : RuleSheet) (changes : List Change) : RuleSheet := changes.foldl change s

theorem changeAll_eq_fileAll (s : RuleSheet) (changes : List Change) :
    s.changeAll changes = s.fileAll (changes.map Change.filing) := by
  rw [changeAll, fileAll, List.foldl_map]
  congr 1
  funext s c
  cases c <;> rfl

/-- The selectors under which rules were filed, each where it first received some. -/
def selectorsOf (filings : List Filing) : List String :=
  ((filings.filter (! ·.2.isEmpty)).map Prod.fst).eraseDups

/-- The rules filed under a selector, in order. -/
def rulesOf (filings : List Filing) (selector : String) : List String :=
  (filings.filter (·.1 == selector)).flatMap Prod.snd

end RuleSheet

theorem RuleGroup.map_selector_fileInto (selector : String) (rules : List String)
    (groups : List RuleGroup) :
    (fileInto selector rules groups).map RuleGroup.selector =
      if selector ∈ groups.map RuleGroup.selector then groups.map RuleGroup.selector
      else groups.map RuleGroup.selector ++ [selector] := by
  induction groups with
  | nil => rfl
  | cons g groups ih =>
    by_cases hg : g.selector = selector
    · simp [fileInto, hg]
    · simp only [fileInto, if_neg hg, List.map_cons, ih, List.mem_cons, Ne.symm hg, false_or]
      split <;> rfl

namespace RuleSheet

theorem selectorsOf_concat (filings : List Filing) (f : Filing) :
    selectorsOf (filings ++ [f]) =
      if f.2 = [] ∨ f.1 ∈ selectorsOf filings then selectorsOf filings
      else selectorsOf filings ++ [f.1] := by
  rw [selectorsOf, List.filter_append, List.map_append]
  by_cases hrules : f.2 = []
  · simp [hrules, selectorsOf]
  · have hlast : [f].filter (! ·.2.isEmpty) = [f] := by simp [hrules]
    rw [hlast, List.map_singleton, eraseDups_concat]
    simp only [hrules, false_or, selectorsOf, List.mem_eraseDups]

/-- The selectors of the groups are those that received rules, in order. -/
theorem map_selector_fileAll (filings : List Filing) :
    (fileAll {} filings).groups.map RuleGroup.selector = selectorsOf filings := by
  induction filings using List.reverseRecOn with
  | nil => rfl
  | append_singleton filings f ih =>
    have hstep : fileAll {} (filings ++ [f]) = (fileAll {} filings).extend f.1 f.2 :=
      fileAll_append {} filings [f]
    rw [hstep, selectorsOf_concat]
    by_cases hrules : f.2 = []
    · rw [hrules, extend_nil, ih, if_pos (.inl rfl)]
    · rw [groups_extend _ _ hrules, RuleGroup.map_selector_fileInto, ih]
      simp only [hrules, false_or]

theorem mem_selectorsOf {filings : List Filing} {selector : String} :
    selector ∈ selectorsOf filings ↔ ∃ f ∈ filings, f.1 = selector ∧ f.2 ≠ [] := by
  simp only [selectorsOf, List.mem_eraseDups, List.mem_map, List.mem_filter, Bool.not_eq_true',
    List.isEmpty_eq_false_iff]
  constructor
  · rintro ⟨f, ⟨hf, hrules⟩, rfl⟩
    exact ⟨f, hf, rfl, hrules⟩
  · rintro ⟨f, hf, rfl, hrules⟩
    exact ⟨f, ⟨hf, hrules⟩, rfl⟩

theorem selectorsOf_nodup (filings : List Filing) : (selectorsOf filings).Nodup := by
  induction filings using List.reverseRecOn with
  | nil => exact List.nodup_nil
  | append_singleton filings f ih =>
    rw [selectorsOf_concat]
    split
    · exact ih
    · next hnew =>
      rw [not_or] at hnew
      exact List.nodup_append_comm.mp (List.nodup_cons.mpr ⟨hnew.2, ih⟩)

/-- The groups are given by the selectors and by what was filed under each of them. -/
theorem groups_fileAll_eq (filings : List Filing) :
    (fileAll {} filings).groups =
      (selectorsOf filings).map fun selector => ⟨selector, rulesOf filings selector⟩ := by
  rw [← map_selector_fileAll, List.map_map]
  conv_lhs => rw [← List.map_id (fileAll {} filings).groups]
  refine List.map_congr_left fun g hg => ?_
  have hrules : g.rules = rulesOf filings g.selector := rules_of_mem_fileAll hg
  exact congrArg (RuleGroup.mk g.selector) hrules

theorem slot?_eq_findIdx? (s : RuleSheet) (selector : String) :
    s.slot? selector = (s.groups.map RuleGroup.selector).findIdx? (· == selector) := by
  rw [slot?, List.findIdx?_map]
  rfl

theorem slot?_eq_none_iff {s : RuleSheet} {selector : String} :
    s.slot? selector = none ↔ selector ∉ s.groups.map RuleGroup.selector := by
  rw [slot?_eq_findIdx?, List.findIdx?_eq_none_iff]
  constructor
  · intro h hmem
    exact absurd (h selector hmem) (by simp)
  · intro h selector' hmem
    rw [beq_eq_false_iff_ne]
    rintro rfl
    exact h hmem

/-- With distinct selectors the place of a selector is the one where its group stands. -/
theorem slot?_eq_some_iff {s : RuleSheet} (hs : (s.groups.map RuleGroup.selector).Nodup)
    {selector : String} {i : Nat} :
    s.slot? selector = some i ↔ ∃ g, s.groups[i]? = some g ∧ g.selector = selector := by
  rw [slot?_eq_findIdx?, ← Option.map_eq_some_iff, ← List.getElem?_map,
    List.findIdx?_eq_some_iff_getElem, List.getElem?_eq_some_iff]
  constructor
  · rintro ⟨hi, heq, -⟩
    exact ⟨hi, by simpa using heq⟩
  · rintro ⟨hi, heq⟩
    refine ⟨hi, by simp [heq], fun j hj heq' => ?_⟩
    have hsame : (s.groups.map RuleGroup.selector)[j] = (s.groups.map RuleGroup.selector)[i] := by
      rw [heq]
      simpa using heq'
    exact absurd (hs.getElem_inj_iff.mp hsame) (Nat.ne_of_lt hj)

theorem slot?_lt {s : RuleSheet} {selector : String} {i : Nat} (h : s.slot? selector = some i) :
    i < s.groups.length :=
  (List.findIdx?_eq_some_iff_findIdx_eq.mp h).1

/-- A new selector gets the place behind all groups; all others keep theirs. -/
theorem slot?_extend (s : RuleSheet) (selector selector' : String) {rules : List String}
    (hrules : rules ≠ []) :
    (s.extend selector rules).slot? selector' =
      if s.slot? selector = none ∧ selector = selector' then some s.groups.length
      else s.slot? selector' := by
  rw [slot?_eq_findIdx?, groups_extend s selector hrules, RuleGroup.map_selector_fileInto]
  by_cases hmem : selector ∈ s.groups.map RuleGroup.selector
  · rw [if_pos hmem, if_neg fun h => slot?_eq_none_iff.mp h.1 hmem, slot?_eq_findIdx?]
  · have hnone := slot?_eq_none_iff.mpr hmem
    rw [if_neg hmem, List.findIdx?_append, ← slot?_eq_findIdx?]
    by_cases heq : selector = selector'
    · subst heq
      rw [if_pos ⟨hnone, rfl⟩, hnone]
      simp
    · rw [if_neg fun h => heq h.2]
      simp [heq]

theorem extend_of_slot? {s : RuleSheet} {selector : String} {rules : List String} {i : Nat}
    (hrules : rules ≠ []) (h : s.slot? selector = some i) :
    s.extend selector rules =
      ⟨s.groups.modify i fun g => { g with rules := g.rules ++ rules }⟩ := by
  rw [extend, if_neg (by simpa using hrules), h]

theorem extend_of_slot?_eq_none {s : RuleSheet} {selector : String} {rules : List String}
    (hrules : rules ≠ []) (h : s.slot? selector = none) :
    s.extend selector rules = ⟨s.groups ++ [⟨selector, rules⟩]⟩ := by
  rw [extend, if_neg (by simpa using hrules), h]

end RuleSheet

namespace IndexedSheet

variable {s : IndexedSheet} {selector : String} {rules : List String}

theorem extend?_of_index {i : Nat} (hrules : rules ≠ []) (h : s.index[selector]? = some i)
    (hi : i < s.groups.length) :
    s.extend? selector rules =
      some { s with
        groups := s.groups.modify i fun g => { g with rules := g.rules ++ rules } } := by
  have hlocate : s.locate selector = (i, s) := by rw [locate, h]
  rw [extend?, if_neg (by simpa using hrules), hlocate]
  exact if_pos hi

theorem extend?_of_index_eq_none (hrules : rules ≠ []) (h : s.index[selector]? = none) :
    s.extend? selector rules =
      some { groups := s.groups ++ [⟨selector, rules⟩]
             index := s.index.insert selector s.groups.length } := by
  have hlocate : s.locate selector = (s.groups.length,
      { groups := s.groups ++ [⟨selector, []⟩]
        index := s.index.insert selector s.groups.length }) := by
    rw [locate, h]
  rw [extend?, if_neg (by simpa using hrules), hlocate]
  dsimp only
  rw [if_pos (by simp)]
  simp [List.modify_eq_take_drop]

/-- The index gives the places of all selectors. -/
def Indexed (s : IndexedSheet) : Prop := ∀ selector, s.index[selector]? = s.slot? selector

theorem indexed_empty : Indexed {} := fun selector => by simp [RuleSheet.slot?]

/-- Filing rules succeeds, does what it does without an index, and keeps the index right. -/
theorem Indexed.extend? (h : s.Indexed) (selector : String) (rules : List String) :
    ∃ s', s.extend? selector rules = some s' ∧
      s'.toRuleSheet = s.toRuleSheet.extend selector rules ∧ s'.Indexed := by
  by_cases hrules : rules = []
  · subst hrules
    exact ⟨s, rfl, rfl, h⟩
  cases hslot : s.slot? selector with
  | some i =>
    have hsheet := RuleSheet.extend_of_slot? hrules hslot
    refine ⟨_, extend?_of_index hrules ((h selector).trans hslot) (RuleSheet.slot?_lt hslot),
      hsheet.symm, fun selector' => ?_⟩
    rw [← hsheet, RuleSheet.slot?_extend _ _ _ hrules, if_neg (by simp [hslot])]
    exact h selector'
  | none =>
    have hsheet := RuleSheet.extend_of_slot?_eq_none hrules hslot
    refine ⟨_, extend?_of_index_eq_none hrules ((h selector).trans hslot), hsheet.symm,
      fun selector' => ?_⟩
    rw [← hsheet, RuleSheet.slot?_extend _ _ _ hrules, Std.HashMap.getElem?_insert, h selector',
      hslot]
    simp

/-- Changes an indexed sheet, if the index allows. -/
def change? (s : IndexedSheet) : RuleSheet.Change → Option IndexedSheet
  | .push selector rule => s.extend? selector [rule]
  | .extend selector rules => s.extend? selector rules

def changeAll? (s : IndexedSheet) (changes : List RuleSheet.Change) : Option IndexedSheet :=
  changes.foldlM change? s

theorem Indexed.change? (h : s.Indexed) (c : RuleSheet.Change) :
    ∃ s', s.change? c = some s' ∧ s'.toRuleSheet = s.toRuleSheet.change c ∧ s'.Indexed := by
  cases c with
  | push selector rule => exact h.extend? selector [rule]
  | extend selector rules => exact h.extend? selector rules

theorem Indexed.changeAll? (h : s.Indexed) (changes : List RuleSheet.Change) :
    ∃ s', s.changeAll? changes = some s' ∧
      s'.toRuleSheet = s.toRuleSheet.changeAll changes ∧ s'.Indexed := by
  induction changes generalizing s with
  | nil => exact ⟨s, rfl, rfl, h⟩
  | cons c changes ih =>
    obtain ⟨s₁, hchange, hsheet, hindexed⟩ := h.change? c
    obtain ⟨s', hrest, hsheet', hindexed'⟩ := ih hindexed
    refine ⟨s', ?_, ?_, hindexed'⟩
    · rw [IndexedSheet.changeAll?, List.foldlM_cons, hchange]
      exact hrest
    · rw [hsheet', hsheet]
      rfl

end IndexedSheet

/-- After any changes to an empty sheet the index leads to a group every time. It gives exactly the
places of the groups, which are those of a sheet that searches for them. The selectors of the groups
are distinct and are those that received rules, in the order in which they first did; each group has
all rules of its selector in order; and the text for some of the selectors has their groups line by
line. -/
theorem RuleSheet.changeAll_refines_multimap (changes : List Change) :
    let filings := changes.map Change.filing
    ∃ sheet : IndexedSheet, IndexedSheet.changeAll? {} changes = some sheet ∧
      sheet.toRuleSheet = changeAll {} changes ∧
      (∀ selector, sheet.index[selector]? = (changeAll {} changes).slot? selector) ∧
      (∀ (selector : String) (i : Nat), sheet.index[selector]? = some i ↔
        ∃ g : RuleGroup, sheet.groups[i]? = some g ∧ g.selector = selector) ∧
      (sheet.groups.map RuleGroup.selector).Nodup ∧
      (∀ selector, selector ∈ sheet.groups.map RuleGroup.selector ↔
        ∃ f ∈ filings, f.1 = selector ∧ f.2 ≠ []) ∧
      sheet.groups.map RuleGroup.selector = selectorsOf filings ∧
      (∀ g ∈ sheet.groups, g.rules = rulesOf filings g.selector) ∧
      ∀ keep : String → Bool, sheet.render keep =
        "\n".intercalate (((selectorsOf filings).filter keep).map fun selector =>
          RuleGroup.text ⟨selector, rulesOf filings selector⟩) := by
  intro filings
  obtain ⟨sheet, hrun, hsheet, hindexed⟩ := IndexedSheet.indexed_empty.changeAll? changes
  have hfile : sheet.toRuleSheet = fileAll {} filings :=
    hsheet.trans (changeAll_eq_fileAll {} changes)
  have hselectors : sheet.groups.map RuleGroup.selector = selectorsOf filings := by
    rw [hfile, map_selector_fileAll]
  have hnodup : (sheet.groups.map RuleGroup.selector).Nodup := by
    rw [hselectors]
    exact selectorsOf_nodup filings
  refine ⟨sheet, hrun, hsheet, fun selector => ?_, fun selector i => ?_, hnodup, fun selector => ?_,
    hselectors, fun g hg => ?_, fun keep => ?_⟩
  · rw [hindexed selector, hsheet]
  · rw [hindexed selector]
    exact slot?_eq_some_iff hnodup
  · rw [hselectors]
    exact mem_selectorsOf
  · rw [hfile] at hg
    exact rules_of_mem_fileAll hg
  · rw [hfile, render, groups_fileAll_eq, List.filter_map, List.map_map]
    rfl

end GridCss

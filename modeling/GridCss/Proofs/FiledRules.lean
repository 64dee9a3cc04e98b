import GridCss.Style.Log

/-!
# Filing rules

A sheet is filled by filing one list of rules after another. Filing touches the group of one
selector only, so the groups of some selectors depend on what is filed under these selectors alone,
and what is filed under new selectors comes after all that was there.
-/

namespace GridCss

/-- Of an element behind a list, nothing is left if it occurred before. -/
theorem eraseDups_concat {α : Type} [BEq α] [LawfulBEq α] [DecidableEq α] (l : List α) (a : α) :
    (l ++ [a]).eraseDups = if a ∈ l then l.eraseDups else l.eraseDups ++ [a] := by
  rw [List.eraseDups_append]
  by_cases h : a ∈ l <;> simp [h, List.removeAll, List.eraseDups_cons]

/-- A selector and the rules to file under it. -/
abbrev Filing := String × List String

/-- Files rules into a list of groups, at the first group of the selector or behind all of them. -/
def RuleGroup.fileInto (selector : String) (rules : List String) : List RuleGroup → List RuleGroup
  | [] => [⟨selector, rules⟩]
  | g :: groups =>
    if g.selector = selector then { g with rules := g.rules ++ rules } :: groups
    else g :: fileInto selector rules groups

namespace RuleGroup

theorem fileInto_append {selector : String} {groups : List RuleGroup}
    (h : ∀ g ∈ groups, g.selector ≠ selector) (rules : List String) (more : List RuleGroup) :
    fileInto selector rules (groups ++ more) = groups ++ fileInto selector rules more := by
  induction groups with
  | nil => rfl
  | cons g groups ih =>
    rw [List.forall_mem_cons] at h
    simp [fileInto, h.1, ih h.2]

theorem filter_fileInto (p : String → Bool) (selector : String) (rules : List String)
    (groups : List RuleGroup) :
    (fileInto selector rules groups).filter (p ·.selector) =
      if p selector then fileInto selector rules (groups.filter (p ·.selector))
      else groups.filter (p ·.selector) := by
  induction groups with
  | nil => cases hp : p selector <;> simp [fileInto, hp]
  | cons g groups ih =>
    by_cases hg : g.selector = selector
    · cases hp : p selector <;> simp [fileInto, hg, hp]
    · cases hp : p selector <;> cases hp' : p g.selector <;>
        simp [fileInto, hg, hp', ih, hp]

theorem mem_fileInto {selector : String} {rules : List String} {groups : List RuleGroup}
    {g : RuleGroup} (h : g ∈ fileInto selector rules groups) :
    g.selector = selector ∨ g ∈ groups := by
  induction groups with
  | nil =>
    rw [List.mem_singleton.mp h]
    exact .inl rfl
  | cons g' groups ih =>
    unfold fileInto at h
    split at h
    · next heq =>
      rcases List.mem_cons.mp h with rfl | h
      · exact .inl heq
      · exact .inr (List.mem_cons_of_mem _ h)
    · rcases List.mem_cons.mp h with rfl | h
      · exact .inr List.mem_cons_self
      · exact (ih h).imp_right (List.mem_cons_of_mem _)

theorem mem_rules_fileInto {selector : String} {rules : List String} {groups : List RuleGroup}
    {g : RuleGroup} (h : g ∈ fileInto selector rules groups) {text : String} (ht : text ∈ g.rules) :
    g.selector = selector ∧ text ∈ rules ∨
      ∃ g' ∈ groups, g'.selector = g.selector ∧ text ∈ g'.rules := by
  induction groups with
  | nil =>
    rw [List.mem_singleton.mp h] at ht ⊢
    exact .inl ⟨rfl, ht⟩
  | cons g' groups ih =>
    unfold fileInto at h
    split at h
    · next heq =>
      rcases List.mem_cons.mp h with rfl | h
      · rcases List.mem_append.mp ht with ht | ht
        · exact .inr ⟨g', List.mem_cons_self, rfl, ht⟩
        · exact .inl ⟨heq, ht⟩
      · exact .inr ⟨g, List.mem_cons_of_mem _ h, rfl, ht⟩
    · rcases List.mem_cons.mp h with rfl | h
      · exact .inr ⟨g, List.mem_cons_self, rfl, ht⟩
      · refine (ih h).imp_right fun ⟨g'', hg'', hrest⟩ => ?_
        exact ⟨g'', List.mem_cons_of_mem _ hg'', hrest⟩

end RuleGroup

namespace RuleSheet

theorem extend_nil (s : RuleSheet) (selector : String) : s.extend selector [] = s := rfl

theorem groups_extend (s : RuleSheet) (selector : String) {rules : List String} (h : rules ≠ []) :
    (s.extend selector rules).groups = RuleGroup.fileInto selector rules s.groups := by
  obtain ⟨groups⟩ := s
  have hrules : rules.isEmpty = false := by simpa using h
  simp only [extend, hrules, Bool.false_eq_true, if_false, slot?]
  induction groups with
  | nil => rfl
  | cons g groups ih =>
    by_cases hg : g.selector = selector
    · simp [List.findIdx?_cons, hg, RuleGroup.fileInto]
    · simp only [List.findIdx?_cons, beq_eq_false_iff_ne.mpr hg, Bool.false_eq_true, if_false,
        RuleGroup.fileInto, hg, ← ih]
      cases groups.findIdx? (·.selector == selector) <;> rfl

def fileAll (s : RuleSheet) (filings : List Filing) : RuleSheet :=
  filings.foldl (fun s f => s.extend f.1 f.2) s

theorem fileAll_append (s : RuleSheet) (filings more : List Filing) :
    s.fileAll (filings ++ more) = (s.fileAll filings).fileAll more := List.foldl_append

/-- The part of a sheet with the selectors to keep. -/
def restrict (s : RuleSheet) (keep : String → Bool) : RuleSheet :=
  ⟨s.groups.filter (keep ·.selector)⟩

theorem restrict_extend (s : RuleSheet) (keep : String → Bool) (selector : String)
    (rules : List String) :
    (s.extend selector rules).restrict keep =
      if keep selector then (s.restrict keep).extend selector rules else s.restrict keep := by
  by_cases h : rules = []
  · simp [h, extend_nil]
  · have hg := RuleGroup.filter_fileInto keep selector rules s.groups
    rw [← groups_extend s selector h] at hg
    cases hk : keep selector
    · simp [restrict, hg, hk]
    · have hg' := groups_extend (s.restrict keep) selector h
      simp only [hk, if_true] at hg ⊢
      simp only [restrict] at hg' ⊢
      rw [hg, ← hg']

/-- The groups to keep depend on what is filed under their selectors alone. -/
theorem restrict_fileAll (s : RuleSheet) (keep : String → Bool) (filings : List Filing) :
    (s.fileAll filings).restrict keep =
      (s.restrict keep).fileAll (filings.filter (keep ·.1)) := by
  induction filings generalizing s with
  | nil => rfl
  | cons f filings ih =>
    show ((s.extend f.1 f.2).fileAll filings).restrict keep = _
    rw [ih, restrict_extend]
    cases hk : keep f.1
    · simp [hk]
    · simp only [hk, if_true, List.filter_cons]
      rfl

theorem mem_groups_extend {s : RuleSheet} {selector : String} {rules : List String} {g : RuleGroup}
    (h : g ∈ (s.extend selector rules).groups) : g.selector = selector ∨ g ∈ s.groups := by
  by_cases hrules : rules = []
  · rw [hrules, extend_nil] at h
    exact .inr h
  · rw [groups_extend s selector hrules] at h
    exact RuleGroup.mem_fileInto h

/-- Every group was there before or has a selector under which something was filed. -/
theorem mem_groups_fileAll {s : RuleSheet} {filings : List Filing} {g : RuleGroup}
    (h : g ∈ (s.fileAll filings).groups) :
    g ∈ s.groups ∨ ∃ f ∈ filings, g.selector = f.1 := by
  induction filings generalizing s with
  | nil => exact .inl h
  | cons f filings ih =>
    rcases ih h with h | ⟨f', hf', heq⟩
    · rcases mem_groups_extend h with heq | h
      · exact .inr ⟨f, List.mem_cons_self, heq⟩
      · exact .inl h
    · exact .inr ⟨f', List.mem_cons_of_mem _ hf', heq⟩

/-- Every rule was there before or was filed under its selector. -/
theorem mem_rules_fileAll {s : RuleSheet} {filings : List Filing} {g : RuleGroup}
    (h : g ∈ (s.fileAll filings).groups) {text : String} (ht : text ∈ g.rules) :
    (∃ g' ∈ s.groups, g'.selector = g.selector ∧ text ∈ g'.rules) ∨
      ∃ f ∈ filings, g.selector = f.1 ∧ text ∈ f.2 := by
  induction filings generalizing s with
  | nil => exact .inl ⟨g, h, rfl, ht⟩
  | cons f filings ih =>
    rcases ih h with ⟨g', hg', hsel, ht'⟩ | ⟨f', hf', hfiled⟩
    · change g' ∈ (s.extend f.1 f.2).groups at hg'
      by_cases hrules : f.2 = []
      · rw [hrules, extend_nil] at hg'
        exact .inl ⟨g', hg', hsel, ht'⟩
      · rw [groups_extend s f.1 hrules] at hg'
        rcases RuleGroup.mem_rules_fileInto hg' ht' with ⟨hf, htf⟩ | ⟨g'', hg'', hsel', ht''⟩
        · exact .inr ⟨f, List.mem_cons_self, hsel.symm.trans hf, htf⟩
        · exact .inl ⟨g'', hg'', hsel'.trans hsel, ht''⟩
    · exact .inr ⟨f', List.mem_cons_of_mem _ hf', hfiled⟩

private theorem groups_fileAll_behind {groups : List RuleGroup} {filings : List Filing}
    (h : ∀ f ∈ filings, ∀ g ∈ groups, g.selector ≠ f.1) (more : List RuleGroup) :
    (fileAll ⟨groups ++ more⟩ filings).groups = groups ++ (fileAll ⟨more⟩ filings).groups := by
  induction filings generalizing more with
  | nil => rfl
  | cons f filings ih =>
    rw [List.forall_mem_cons] at h
    have hstep : extend ⟨groups ++ more⟩ f.1 f.2 = ⟨groups ++ (extend ⟨more⟩ f.1 f.2).groups⟩ := by
      by_cases hrules : f.2 = []
      · rw [hrules]
        rfl
      · rw [groups_extend ⟨more⟩ f.1 hrules, ← RuleGroup.fileInto_append h.1]
        exact congrArg RuleSheet.mk (groups_extend ⟨groups ++ more⟩ f.1 hrules)
    show (fileAll (extend ⟨groups ++ more⟩ f.1 f.2) filings).groups = _
    rw [hstep]
    exact ih h.2 _

/-- What is filed under new selectors comes after all that was there. -/
theorem groups_fileAll {s : RuleSheet} {filings : List Filing}
    (h : ∀ f ∈ filings, ∀ g ∈ s.groups, g.selector ≠ f.1) :
    (s.fileAll filings).groups = s.groups ++ (fileAll {} filings).groups := by
  have hbehind := groups_fileAll_behind h []
  rw [List.append_nil] at hbehind
  exact hbehind

/-- Lists of filings that share no selector do not mix. -/
theorem groups_fileAll_append {filings more : List Filing}
    (h : ∀ f ∈ filings, ∀ f' ∈ more, f.1 ≠ f'.1) :
    (fileAll {} (filings ++ more)).groups =
      (fileAll {} filings).groups ++ (fileAll {} more).groups := by
  rw [fileAll_append]
  refine groups_fileAll fun f' hf' g hg heq => ?_
  rcases mem_groups_fileAll hg with hg | ⟨f, hf, hsel⟩
  · simp at hg
  · exact h f hf f' hf' (hsel.symm.trans heq)

theorem groups_fileAll_flatMap {ι : Type} (filings : ι → List Filing) {xs : List ι}
    (h : xs.Pairwise fun x y => ∀ f ∈ filings x, ∀ f' ∈ filings y, f.1 ≠ f'.1) :
    (fileAll {} (xs.flatMap filings)).groups =
      xs.flatMap fun x => (fileAll {} (filings x)).groups := by
  induction xs with
  | nil => rfl
  | cons x xs ih =>
    rw [List.pairwise_cons] at h
    rw [List.flatMap_cons, List.flatMap_cons, groups_fileAll_append, ih h.2]
    intro f hf f' hf'
    obtain ⟨y, hy, hf'⟩ := List.mem_flatMap.mp hf'
    exact h.1 y hy f hf f' hf'

theorem fileAll_same {selector : String} {filings : List Filing}
    (h : ∀ f ∈ filings, f.1 = selector) (rules : List String) :
    fileAll ⟨[⟨selector, rules⟩]⟩ filings = ⟨[⟨selector, rules ++ filings.flatMap Prod.snd⟩]⟩ := by
  induction filings generalizing rules with
  | nil => simp [fileAll]
  | cons f filings ih =>
    rw [List.forall_mem_cons] at h
    have hstep : extend ⟨[⟨selector, rules⟩]⟩ f.1 f.2 = ⟨[⟨selector, rules ++ f.2⟩]⟩ := by
      by_cases hrules : f.2 = []
      · rw [hrules, extend_nil, List.append_nil]
      · have hgroups := groups_extend ⟨[⟨selector, rules⟩]⟩ f.1 hrules
        rw [RuleGroup.fileInto, if_pos h.1.symm] at hgroups
        exact congrArg RuleSheet.mk hgroups
    show fileAll (extend ⟨[⟨selector, rules⟩]⟩ f.1 f.2) filings = _
    rw [hstep, ih h.2, List.flatMap_cons, List.append_assoc]

/-- A group has all the rules that were filed under its selector, in order. -/
theorem rules_of_mem_fileAll {filings : List Filing} {g : RuleGroup}
    (h : g ∈ (fileAll {} filings).groups) :
    g.rules = (filings.filter (·.1 == g.selector)).flatMap Prod.snd := by
  have hsame : ∀ fs : List Filing, (∀ f ∈ fs, f.1 = g.selector) → g ∈ (fileAll {} fs).groups →
      g.rules = fs.flatMap Prod.snd := by
    intro fs hfs hg
    induction fs with
    | nil => exact absurd hg List.not_mem_nil
    | cons f fs ih =>
      rw [List.forall_mem_cons] at hfs
      change g ∈ (fileAll (extend {} f.1 f.2) fs).groups at hg
      by_cases hrules : f.2 = []
      · rw [hrules, extend_nil] at hg
        rw [List.flatMap_cons, hrules, List.nil_append]
        exact ih hfs.2 hg
      · have hfirst : extend {} f.1 f.2 = ⟨[⟨g.selector, f.2⟩]⟩ := by
          rw [← hfs.1]
          exact congrArg RuleSheet.mk (groups_extend {} f.1 hrules)
        rw [hfirst, fileAll_same hfs.2, List.mem_singleton] at hg
        rw [hg, List.flatMap_cons]
  apply hsame
  · intro f hf
    simpa using (List.mem_filter.mp hf).2
  · have hrestrict := restrict_fileAll {} (· == g.selector) filings
    have hmem : g ∈ ((fileAll {} filings).restrict (· == g.selector)).groups :=
      List.mem_filter.mpr ⟨h, beq_self_eq_true g.selector⟩
    rw [hrestrict] at hmem
    exact hmem

end RuleSheet

end GridCss

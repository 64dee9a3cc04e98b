import GridCss.Proofs.TidyValues

/-!
# Items as they are read

The items of a source are tidy: their declarations are, selectors and names of keyframes have
neither blanks nor opening braces, and every name is one that a source can give. A reader holds tidy
items, its own and those in front of the conditionals around it, and so does each reader inside it;
one character after the other, it never holds anything else.
-/

namespace GridCss

open Source

structure KeyframeStep.Tidy (step : KeyframeStep) : Prop where
  selector : Text.IsSelector step.selector
  declarations : ∀ d ∈ step.declarations, d.Tidy

namespace Item

/-- The name may be empty, but it is not the one that keyframes have. -/
def IsConditionalName (name : String) : Prop :=
  (∀ c ∈ name.toList, Text.isNameChar c = true) ∧ name ≠ "keyframes"

inductive Tidy : Item → Prop
  | declaration {d : Declaration} (h : d.Tidy) : Tidy (.declaration d)
  | pseudo {b : PseudoBlock} (hselector : Text.IsSelector b.selector)
      (hcolon : [':'] <+: b.selector.toList) (hdeclarations : ∀ d ∈ b.declarations, d.Tidy) :
      Tidy (.pseudo b)
  | conditional {name : String} {arguments : List (List Argument)} {items : List Item}
      (hname : IsConditionalName name) (harguments : Argument.AreTidy arguments)
      (hitems : ∀ item ∈ items, Tidy item) : Tidy (.conditional name arguments items)
  | keyframes {k : Keyframes} (hne : k.name ≠ "") (hname : Text.IsSelector k.name)
      (hsteps : ∀ step ∈ k.steps, step.Tidy) : Tidy (.keyframes k)
  | comment (text : String) : Tidy (.comment text)

end Item

namespace Source

/-- What has been read of a selector. -/
theorem isSelector_textOf {text : List Char} :
    Text.IsSelector (textOf text) ↔ ∀ c ∈ text, Text.isBlank c = false ∧ c ≠ '{' := by
  simp [Text.IsSelector, toList_textOf]

theorem isSelector_textOf_cons {text : List Char} {c : Char} (h : Text.IsSelector (textOf text))
    (hblank : Text.isBlank c = false) (hbrace : c ≠ '{') :
    Text.IsSelector (textOf (c :: text)) := by
  rw [isSelector_textOf] at h ⊢
  exact List.forall_mem_cons.mpr ⟨⟨hblank, hbrace⟩, h⟩

namespace BlockReader

structure Tidy (r : BlockReader) : Prop where
  declarations : ∀ d ∈ r.declarations, d.Tidy
  mode : ∀ d, r.mode = .declaration d → d.Tidy

variable {r : BlockReader}

theorem tidy_start : Tidy {} := ⟨by simp, by simp⟩

theorem Tidy.concat (h : r.Tidy) {d : Declaration} (hd : d.Tidy) :
    ∀ d' ∈ r.declarations ++ [d], d'.Tidy := by
  rw [List.forall_mem_append, List.forall_mem_singleton]
  exact ⟨h.declarations, hd⟩

theorem Tidy.stepIdle (h : r.Tidy) (p : Position) (c : Char) :
    Ensures (Sum.elim Tidy fun declarations => ∀ d ∈ declarations, d.Tidy) (r.stepIdle p c) := by
  unfold BlockReader.stepIdle
  split_ifs
  · exact ⟨h.declarations, by simp⟩
  · exact h.declarations
  · exact ⟨h.declarations, by simp⟩
  · exact ⟨h.declarations, by simp⟩
  · split
    · trivial
    · next hstart =>
      refine ⟨h.declarations, ?_⟩
      rintro _ ⟨⟩
      exact DeclarationReader.tidy_of_start hstart

theorem Tidy.step (h : r.Tidy) (p : Position) (c : Char) :
    Ensures (Sum.elim Tidy fun declarations => ∀ d ∈ declarations, d.Tidy) (r.step p c) := by
  unfold BlockReader.step
  split
  · exact h.stepIdle p c
  · split
    · exact ⟨h.declarations, by simp⟩
    · trivial
  · split
    · exact ⟨h.declarations, by simp⟩
    · exact ⟨h.declarations, by simp⟩
  · next declaration hmode =>
    have hstep := (h.mode declaration hmode).step p c
    generalize declaration.step p c = result at hstep ⊢
    match result with
    | .error _ => trivial
    | .ok (.more _) =>
      refine ⟨h.declarations, ?_⟩
      rintro _ ⟨⟩
      exact hstep
    | .ok (.done _) => exact ⟨h.concat hstep, by simp⟩
    | .ok (.closed _) => exact h.concat hstep

end BlockReader

def StepsMode.Tidy : StepsMode → Prop
  | .selector text => Text.IsSelector (textOf text)
  | .block s b => Text.IsSelector s ∧ b.Tidy
  | .idle | .slash | .comment _ => True

namespace StepsReader

structure Tidy (r : StepsReader) : Prop where
  mode : r.mode.Tidy
  steps : ∀ step ∈ r.steps, step.Tidy

variable {r : StepsReader}

theorem tidy_start : Tidy {} := ⟨trivial, by simp⟩

theorem Tidy.stepSelector (h : r.Tidy) {text : List Char} (htext : Text.IsSelector (textOf text))
    (c : Char) : (r.stepSelector text c).Tidy := by
  unfold StepsReader.stepSelector
  split_ifs with hbrace hblank
  · exact ⟨⟨htext, BlockReader.tidy_start⟩, h.steps⟩
  · exact ⟨htext, h.steps⟩
  · exact ⟨isSelector_textOf_cons htext (by simpa using hblank) hbrace, h.steps⟩

theorem Tidy.step (h : r.Tidy) (p : Position) (c : Char) :
    Ensures (Sum.elim Tidy fun steps => ∀ step ∈ steps, step.Tidy) (r.step p c) := by
  unfold StepsReader.step
  split
  · split_ifs
    · exact h
    · exact h.steps
    · exact ⟨trivial, h.steps⟩
    · exact ⟨trivial, h.steps⟩
    · exact h.stepSelector (by simp [Text.IsSelector]) c
  · split
    · exact ⟨trivial, h.steps⟩
    · exact h.stepSelector (isSelector_textOf.mpr (List.forall_mem_singleton.mpr (by decide))) c
  · split
    · exact ⟨trivial, h.steps⟩
    · exact ⟨trivial, h.steps⟩
  · next text hmode =>
    have htext : StepsMode.Tidy (.selector text) := hmode ▸ h.mode
    exact h.stepSelector htext c
  · next selector b hmode =>
    obtain ⟨hselector, hblock⟩ : StepsMode.Tidy (.block selector b) := hmode ▸ h.mode
    have hstep := hblock.step p c
    generalize b.step p c = result at hstep ⊢
    match result with
    | .error _ => trivial
    | .ok (.inl _) => exact ⟨⟨hselector, hstep⟩, h.steps⟩
    | .ok (.inr _) =>
      refine ⟨trivial, ?_⟩
      rw [List.forall_mem_append, List.forall_mem_singleton]
      exact ⟨h.steps, hselector, hstep⟩

end StepsReader

def Mode.Tidy : Mode → Prop
  | .declaration d => d.Tidy
  | .selector _ text => Text.IsSelector (textOf text) ∧ [':'] <+: (textOf text).toList
  | .pseudo _ s b => Text.IsSelector s ∧ [':'] <+: s.toList ∧ b.Tidy
  | .word name => ∀ c ∈ name, Text.isNameChar c = true
  | .header name groups? =>
    Item.IsConditionalName name ∧ ∀ groups ∈ groups?, Argument.AreTidy groups
  | .arguments name reader => Item.IsConditionalName name ∧ reader.Tidy
  | .keyframesName name => Text.IsSelector (textOf name)
  | .keyframesHeader name => name ≠ "" ∧ Text.IsSelector name
  | .keyframes name reader => name ≠ "" ∧ Text.IsSelector name ∧ reader.Tidy
  | .idle | .slash _ | .comment _ => True

structure OpenConditional.Tidy (o : OpenConditional) : Prop where
  name : Item.IsConditionalName o.name
  arguments : Argument.AreTidy o.arguments
  before : ∀ item ∈ o.before, item.Tidy

namespace Reader

structure Tidy (r : Reader) : Prop where
  mode : r.mode.Tidy
  items : ∀ item ∈ r.items, item.Tidy
  enclosing : ∀ o ∈ r.enclosing, o.Tidy

variable {r : Reader}

theorem tidy_start : Tidy {} := ⟨trivial, by simp, by simp⟩

theorem Tidy.enter (h : r.Tidy) {mode : Mode} (hmode : mode.Tidy) : (r.enter mode).Tidy :=
  ⟨hmode, h.items, h.enclosing⟩

theorem Tidy.add (h : r.Tidy) {item : Item} (hitem : item.Tidy) : (r.add item).Tidy := by
  refine ⟨trivial, ?_, h.enclosing⟩
  rw [Reader.add, List.forall_mem_append, List.forall_mem_singleton]
  exact ⟨h.items, hitem⟩

theorem Tidy.openBlock (h : r.Tidy) {name : String} {arguments : List (List Argument)}
    (hname : Item.IsConditionalName name) (harguments : Argument.AreTidy arguments) :
    (r.openBlock name arguments).Tidy := by
  refine ⟨trivial, by simp [Reader.openBlock], ?_⟩
  rw [Reader.openBlock, List.forall_mem_cons]
  exact ⟨⟨hname, harguments, h.items⟩, h.enclosing⟩

theorem Tidy.closeBlock? (h : r.Tidy) : ∀ r' ∈ r.closeBlock?, r'.Tidy := by
  unfold Reader.closeBlock?
  split
  · rintro _ ⟨⟩
  · next name arguments before enclosing henclosing =>
    have hall := h.enclosing
    rw [henclosing, List.forall_mem_cons] at hall
    obtain ⟨⟨hname, harguments, hbefore⟩, hrest⟩ := hall
    rintro _ ⟨⟩
    refine ⟨trivial, ?_, hrest⟩
    rw [List.forall_mem_append, List.forall_mem_singleton]
    exact ⟨hbefore, .conditional hname harguments h.items⟩

theorem isConditionalName_textOf {name : List Char} (h : ∀ c ∈ name, Text.isNameChar c = true)
    (hne : textOf name ≠ "keyframes") : Item.IsConditionalName (textOf name) := by
  refine ⟨?_, hne⟩
  simpa [toList_textOf] using h

/-- Each step leads from tidy items to tidy items. -/
theorem Tidy.takes {mode : Mode} {p : Position} {c : Char} {result : Except SourceError Reader}
    (h : (r.enter mode).Tidy) (htakes : r.Takes p c mode result) : Ensures Tidy result := by
  have hmode : mode.Tidy := h.mode
  induction htakes with
  | noItem | noComment | declarationFault | declarationUnclosed | pseudoFault | headerFault
    | nameMissing | keyframesNoBlock | keyframesFault => trivial
  | skip | selectorBlank | headerBlank | nameSkip | keyframesBlank => exact h
  | hash | slash | startComment | commentMore => exact h.enter trivial
  | colon =>
    have hselector : Text.IsSelector (textOf [':']) :=
      isSelector_textOf.mpr (List.forall_mem_singleton.mpr (by decide))
    exact ⟨⟨hselector, List.prefix_rfl⟩, h.items, h.enclosing⟩
  | sign => exact h.enter (by simp [Mode.Tidy])
  | close _ hclose => exact h.closeBlock? _ hclose
  | property hc => exact h.enter ⟨by simp, by simpa using hc⟩
  | commentEnd => exact h.add (.comment _)
  | declarationMore hstep =>
    exact h.enter ((DeclarationReader.Tidy.step hmode p c).of_eq hstep)
  | declarationEnd hstep =>
    exact h.add (.declaration ((DeclarationReader.Tidy.step hmode p c).of_eq hstep))
  | declarationClose hstep hclose =>
    have hd := (DeclarationReader.Tidy.step hmode p c).of_eq hstep
    exact (h.add (.declaration hd)).closeBlock? _ hclose
  | selectorOpen => exact h.enter ⟨hmode.1, hmode.2, BlockReader.tidy_start⟩
  | selectorMore hblank hc =>
    refine h.enter ⟨isSelector_textOf_cons hmode.1 hblank hc, ?_⟩
    rw [toList_textOf, List.reverse_cons, ← toList_textOf]
    exact hmode.2.trans (List.prefix_append _ _)
  | pseudoMore hstep =>
    obtain ⟨hselector, hcolon, hblock⟩ := hmode
    exact h.enter ⟨hselector, hcolon, (hblock.step p c).of_eq hstep⟩
  | pseudoEnd hstep =>
    obtain ⟨hselector, hcolon, hblock⟩ := hmode
    exact h.add (.pseudo hselector hcolon ((hblock.step p c).of_eq hstep))
  | wordMore hc => exact h.enter (List.forall_mem_cons.mpr ⟨hc, hmode⟩)
  | wordKeyframes _ _ _ ih =>
    have hempty : Mode.Tidy (.keyframesName []) := by simp [Mode.Tidy, Text.IsSelector]
    exact ih (h.enter hempty) hempty
  | wordHeader _ hname _ ih =>
    have hheader : Mode.Tidy (.header _ none) := ⟨isConditionalName_textOf hmode hname, by simp⟩
    exact ih (h.enter hheader) hheader
  | @headerOpen _ arguments =>
    refine h.openBlock hmode.1 ?_
    cases arguments with
    | none => exact .nil
    | some groups => exact hmode.2 groups rfl
  | headerArguments => exact h.enter ⟨hmode.1, ArgumentReader.tidy_start⟩
  | argumentsMore hstep =>
    have hnext := hmode.2.step c
    rw [hstep] at hnext
    exact h.enter ⟨hmode.1, hnext⟩
  | argumentsEnd hstep =>
    have hgroups := hmode.2.step c
    rw [hstep] at hgroups
    refine h.enter ⟨hmode.1, ?_⟩
    rintro _ ⟨⟩
    exact hgroups
  | nameEnd hname => exact h.enter ⟨textOf_ne_empty hname, hmode⟩
  | nameOpen hname => exact h.enter ⟨textOf_ne_empty hname, hmode, StepsReader.tidy_start⟩
  | nameMore hblank hc => exact h.enter (isSelector_textOf_cons hmode hblank hc)
  | keyframesOpen => exact h.enter ⟨hmode.1, hmode.2, StepsReader.tidy_start⟩
  | keyframesMore hstep =>
    obtain ⟨hne, hname, hsteps⟩ := hmode
    exact h.enter ⟨hne, hname, (hsteps.step p c).of_eq hstep⟩
  | keyframesEnd hstep =>
    obtain ⟨hne, hname, hsteps⟩ := hmode
    exact h.add (.keyframes hne hname ((hsteps.step p c).of_eq hstep))

theorem Tidy.feed (h : r.Tidy) (p : Position) (cs : List Char) : Ensures Tidy (r.feed p cs) :=
  ensures_feed (fun r p c hr => Tidy.takes hr (r.takes_step p c)) h p cs

theorem Tidy.finish (h : r.Tidy) {p : Position} {items : List Item}
    (hfinish : r.finish p = .ok items) : ∀ item ∈ items, item.Tidy := by
  obtain ⟨-, hcases⟩ := finish_eq_ok hfinish
  rcases hcases with ⟨-, rfl⟩ | ⟨comment, -, rfl⟩ | ⟨declaration, d, hmode, hd, rfl⟩
  · exact h.items
  · exact (h.add (.comment _)).items
  · have hdeclaration : declaration.Tidy := by
      have hmode' := h.mode
      rwa [hmode] at hmode'
    exact (h.add (.declaration (hdeclaration.finish d hd))).items

end Reader

end Source

theorem Item.forall_tidy_of_parse {source : String} {items : List Item}
    (h : parse source = .ok items) : ∀ item ∈ items, item.Tidy := by
  obtain ⟨r, hfeed, hfinish⟩ := parse_eq_ok h
  have hr : r.Tidy := (Reader.tidy_start.feed _ _).of_eq hfeed
  exact hr.finish hfinish

/-- Whatever the source, the items read from it are tidy, nested ones included, and its pseudo
blocks are numbered from zero in document order. -/
theorem Item.tidy_of_parse {source : String} {items : List Item} (h : parse source = .ok items) :
    (∀ item ∈ items, item.Tidy) ∧ blockIds items = List.range (blocksAll items).length :=
  ⟨forall_tidy_of_parse h, blockIds_of_parse h⟩

/-- Blanks in a value and in selectors, an at sign that starts no call, a numeric argument and an
empty one, and blocks on two levels. -/
theorem Item.tidy_of_parse_nested :
    let items : List Item :=
      [.declaration ⟨"a", [.text "@b ", .call "r" [[.number 2], [.text "x ", .call "i" []], []]]⟩,
        .conditional "if" [] [.pseudo ⟨0, ":hover", []⟩],
        .keyframes ⟨"k", [⟨"0%,to", [⟨"c", []⟩]⟩]⟩,
        .pseudo ⟨1, "::after", []⟩]
    parse ("a: @b\n @r( 2 , x @i() ,);@if\x7b:ho ver\x7b\x7d\x7d" ++
        "@keyframes k \x7b0%, to\x7bc: \x7d\x7d::after\x7b\x7d") = .ok items ∧
      (∀ item ∈ items, item.Tidy) ∧ blockIds items = List.range (blocksAll items).length := by
  intro items
  have hparse : parse ("a: @b\n @r( 2 , x @i() ,);@if\x7b:ho ver\x7b\x7d\x7d" ++
      "@keyframes k \x7b0%, to\x7bc: \x7d\x7d::after\x7b\x7d") = .ok items := rfl
  exact ⟨hparse, tidy_of_parse hparse⟩

end GridCss

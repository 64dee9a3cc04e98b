import GridCss.Proofs.ReadBack
import GridCss.Proofs.TidySources

/-!
# Items that are read and printed

What is read from a source is tidy, and what is read back from its print is well-formed. The two
differ in little: well-formed items have no numbers as arguments, no comment that holds the mark at
its end and no step whose selector starts like something else. Tidy items without these are exactly
the well-formed ones, and so what has been read from a source is also read from its own print.
-/

namespace GridCss

/-- An argument without numbers. -/
inductive Argument.Printable : Argument → Prop
  | text (s : String) : Printable (.text s)
  | call {name : String} {arguments : List (List Argument)}
      (h : ∀ group ∈ arguments, ∀ a ∈ group, Printable a) : Printable (.call name arguments)

def Node.Printable : Node → Prop
  | .text _ => True
  | .call name arguments => (Argument.call name arguments).Printable

def Declaration.Printable (d : Declaration) : Prop := ∀ node ∈ d.value, node.Printable

structure KeyframeStep.Printable (step : KeyframeStep) : Prop where
  start : ∀ t ∈ ["\x7d", ";", "#", "/*", "//"], ¬ t.toList <+: step.selector.toList
  declarations : ∀ d ∈ step.declarations, d.Printable

inductive Item.Printable : Item → Prop
  | declaration {d : Declaration} (h : d.Printable) : Printable (.declaration d)
  | pseudo {b : PseudoBlock} (h : ∀ d ∈ b.declarations, d.Printable) : Printable (.pseudo b)
  | conditional {name : String} {arguments : List (List Argument)} {items : List Item}
      (harguments : ∀ group ∈ arguments, ∀ a ∈ group, a.Printable)
      (hitems : ∀ item ∈ items, Printable item) : Printable (.conditional name arguments items)
  | keyframes {k : Keyframes} (h : ∀ step ∈ k.steps, step.Printable) : Printable (.keyframes k)
  | comment {text : String} (h : ¬ "*/".toList <:+: text.toList) : Printable (.comment text)

namespace Argument

/-- Where there are no numbers, nothing is asked of them. -/
theorem isTidyGroup_iff_isGroup {pieces : List Argument} (h : ∀ a ∈ pieces, a.Printable) :
    IsTidyGroup pieces ↔ IsGroup pieces := by
  refine ⟨IsTidyGroup.isGroup, fun hgroup => ⟨hgroup, ?_⟩⟩
  intro x hx
  cases h _ hx

theorem areTidy_and_printable_iff {arguments : List (List Argument)} :
    AreTidy arguments ∧ (∀ group ∈ arguments, ∀ a ∈ group, a.Printable) ↔
      arguments ≠ [[]] ∧
        ∀ group ∈ arguments, IsTidyGroup group ∧ ∀ a ∈ group, a.Tidy ∧ a.Printable := by
  constructor
  · rintro ⟨⟨hne, hgroups⟩, hprintable⟩
    refine ⟨hne, fun group hgroup => ⟨(hgroups group hgroup).1, fun a ha => ?_⟩⟩
    exact ⟨(hgroups group hgroup).2 a ha, hprintable group hgroup a ha⟩
  · rintro ⟨hne, hgroups⟩
    refine ⟨⟨hne, fun group hgroup => ⟨(hgroups group hgroup).1, fun a ha => ?_⟩⟩, ?_⟩
    · exact ((hgroups group hgroup).2 a ha).1
    · exact fun group hgroup a ha => ((hgroups group hgroup).2 a ha).2

mutual

theorem wellFormed_iff : ∀ a : Argument, a.WellFormed ↔ a.Tidy ∧ a.Printable
  | .text s => ⟨fun _ => ⟨.text s, .text s⟩, fun _ => trivial⟩
  | .number _ => by
    refine ⟨False.elim, ?_⟩
    rintro ⟨-, ⟨⟩⟩
  | .call name arguments => by
    rw [WellFormed, wellFormedGroups_iff arguments, ← areTidy_and_printable_iff]
    constructor
    · rintro ⟨hname, htidy, hprintable⟩
      exact ⟨htidy.call hname, .call hprintable⟩
    · rintro ⟨htidy, hprintable⟩
      cases htidy with
      | call hname hne hgroups hpieces =>
        have htidy : AreTidy arguments :=
          ⟨hne, fun group hgroup => ⟨hgroups group hgroup, hpieces group hgroup⟩⟩
        cases hprintable with
        | call hprintable => exact ⟨hname, htidy, hprintable⟩

theorem wellFormedPieces_iff :
    ∀ pieces : List Argument, WellFormedPieces pieces ↔ ∀ a ∈ pieces, a.Tidy ∧ a.Printable
  | [] => by simp [WellFormedPieces]
  | a :: rest => by
    rw [WellFormedPieces, wellFormed_iff a, wellFormedPieces_iff rest, List.forall_mem_cons]

theorem wellFormedGroups_iff :
    ∀ groups : List (List Argument), WellFormedGroups groups ↔
      ∀ group ∈ groups, IsTidyGroup group ∧ ∀ a ∈ group, a.Tidy ∧ a.Printable
  | [] => by simp [WellFormedGroups]
  | group :: rest => by
    rw [WellFormedGroups, wellFormedPieces_iff group, wellFormedGroups_iff rest,
      List.forall_mem_cons, ← and_assoc]
    refine and_congr_left fun _ => and_congr_left fun hpieces => ?_
    exact (isTidyGroup_iff_isGroup fun a ha => (hpieces a ha).2).symm

end

end Argument

theorem Node.wellFormed_iff : ∀ node : Node, node.WellFormed ↔ node.Tidy ∧ node.Printable
  | .text _ => (and_iff_left trivial).symm
  | .call name arguments => Argument.wellFormed_iff (.call name arguments)

theorem Declaration.wellFormed_iff (d : Declaration) : d.WellFormed ↔ d.Tidy ∧ d.Printable := by
  have hnodes : (∀ node ∈ d.value, node.WellFormed) ↔
      (∀ node ∈ d.value, node.Tidy) ∧ d.Printable := by
    simp only [Node.wellFormed_iff, imp_and, forall_and, Printable]
  constructor
  · rintro ⟨hproperty, hseparated, hvalue⟩
    exact ⟨⟨hproperty, hseparated, (hnodes.mp hvalue).1⟩, (hnodes.mp hvalue).2⟩
  · rintro ⟨⟨hproperty, hseparated, hvalue⟩, hprintable⟩
    exact ⟨hproperty, hseparated, hnodes.mpr ⟨hvalue, hprintable⟩⟩

theorem Declaration.forall_wellFormed_iff {declarations : List Declaration} :
    (∀ d ∈ declarations, d.WellFormed) ↔
      (∀ d ∈ declarations, d.Tidy) ∧ ∀ d ∈ declarations, d.Printable := by
  simp only [wellFormed_iff, imp_and, forall_and]

theorem KeyframeStep.wellFormed_iff (step : KeyframeStep) :
    step.WellFormed ↔ step.Tidy ∧ step.Printable := by
  constructor
  · rintro ⟨hselector, hstart, hdeclarations⟩
    obtain ⟨htidy, hprintable⟩ := Declaration.forall_wellFormed_iff.mp hdeclarations
    exact ⟨⟨hselector, htidy⟩, hstart, hprintable⟩
  · rintro ⟨⟨hselector, htidy⟩, hstart, hprintable⟩
    exact ⟨hselector, hstart, Declaration.forall_wellFormed_iff.mpr ⟨htidy, hprintable⟩⟩

namespace Item

mutual

/-- Well-formed is what is tidy and can be printed. -/
theorem wellFormed_iff : ∀ item : Item, item.WellFormed ↔ item.Tidy ∧ item.Printable
  | .declaration d => by
    rw [WellFormed, d.wellFormed_iff]
    constructor
    · rintro ⟨htidy, hprintable⟩
      exact ⟨.declaration htidy, .declaration hprintable⟩
    · rintro ⟨htidy, hprintable⟩
      cases htidy with
      | declaration htidy =>
        cases hprintable with
        | declaration hprintable => exact ⟨htidy, hprintable⟩
  | .pseudo b => by
    rw [WellFormed, Declaration.forall_wellFormed_iff]
    constructor
    · rintro ⟨hselector, hcolon, htidy, hprintable⟩
      exact ⟨.pseudo hselector hcolon htidy, .pseudo hprintable⟩
    · rintro ⟨htidy, hprintable⟩
      cases htidy with
      | pseudo hselector hcolon htidy =>
        cases hprintable with
        | pseudo hprintable => exact ⟨hselector, hcolon, htidy, hprintable⟩
  | .conditional name arguments items => by
    rw [WellFormed, Argument.wellFormedGroups_iff, wellFormedAll_iff items]
    constructor
    · rintro ⟨hname, hkeyframes, hne, hgroups, hitems⟩
      obtain ⟨htidy, hprintable⟩ := Argument.areTidy_and_printable_iff.mpr ⟨hne, hgroups⟩
      exact ⟨.conditional ⟨hname, hkeyframes⟩ htidy fun item hitem => (hitems item hitem).1,
        .conditional hprintable fun item hitem => (hitems item hitem).2⟩
    · rintro ⟨htidy, hprintable⟩
      cases htidy with
      | conditional hname htidy hitems =>
        cases hprintable with
        | conditional hprintable hprintables =>
          obtain ⟨hne, hgroups⟩ := Argument.areTidy_and_printable_iff.mp ⟨htidy, hprintable⟩
          exact ⟨hname.1, hname.2, hne, hgroups, fun item hitem =>
            ⟨hitems item hitem, hprintables item hitem⟩⟩
  | .keyframes k => by
    have hsteps : (∀ step ∈ k.steps, step.WellFormed) ↔
        (∀ step ∈ k.steps, step.Tidy) ∧ ∀ step ∈ k.steps, step.Printable := by
      simp only [KeyframeStep.wellFormed_iff, imp_and, forall_and]
    rw [WellFormed, hsteps]
    constructor
    · rintro ⟨hne, hname, htidy, hprintable⟩
      exact ⟨.keyframes hne hname htidy, .keyframes hprintable⟩
    · rintro ⟨htidy, hprintable⟩
      cases htidy with
      | keyframes hne hname htidy =>
        cases hprintable with
        | keyframes hprintable => exact ⟨hne, hname, htidy, hprintable⟩
  | .comment text => by
    refine ⟨fun h => ⟨.comment text, .comment h⟩, ?_⟩
    rintro ⟨-, hprintable⟩
    cases hprintable with
    | comment h => exact h

theorem wellFormedAll_iff :
    ∀ items : List Item, WellFormedAll items ↔ ∀ item ∈ items, item.Tidy ∧ item.Printable
  | [] => by simp [WellFormedAll]
  | item :: rest => by
    rw [WellFormedAll, wellFormed_iff item, wellFormedAll_iff rest, List.forall_mem_cons]

end

/-- Items that have been read and can be printed are read back from their print. -/
theorem parse_source_of_parse {text : String} {items : List Item} (h : parse text = .ok items)
    (hprintable : ∀ item ∈ items, item.Printable) : parse (source items) = .ok items := by
  have hwf : WellFormedAll items := (wellFormedAll_iff items).mpr fun item hitem =>
    ⟨forall_tidy_of_parse h item hitem, hprintable item hitem⟩
  exact parse_of_wellFormedAll hwf (blockIds_of_parse h)

/-- Blanks that were dropped by reading are not in the print. -/
example : parse " a :  b\n c ;" = .ok [.declaration ⟨"a", [.text "b c"]⟩] ∧
    source [.declaration ⟨"a", [.text "b c"]⟩] = "a:b c;" := ⟨rfl, rfl⟩

end Item

end GridCss

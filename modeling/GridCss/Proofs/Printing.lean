import Mathlib.Data.List.Infix
import Mathlib.Data.List.TakeWhile
import GridCss.Proofs.BlockNumbers

/-!
# Printed items

Items are printed as a source that says what they are: characters of arguments stand in quotes, all
other texts as they are. Not every list of items can be read back. Some are not read from any
source, such as a value with two texts side by side, and some only from one that is written
otherwise, such as a comment that holds the mark by which a block comment ends. Well-formed items
are free of both.
-/

namespace GridCss

namespace Text

/-- A character of an argument in the quotes that make it text. -/
def quoteChar (c : Char) : List Char :=
  if c = '\\' then [c] else if c = '\'' then ['"', c, '"'] else ['\'', c, '\'']

end Text

mutual

def Argument.print : Argument → List Char
  | .text s => s.toList.flatMap Text.quoteChar
  | .number x => (Number.text x).toList
  | .call name arguments => '@' :: name.toList ++ '(' :: Argument.printGroups arguments ++ [')']

def Argument.printPieces : List Argument → List Char
  | [] => []
  | a :: rest => a.print ++ Argument.printPieces rest

def Argument.printGroups : List (List Argument) → List Char
  | [] => []
  | group :: rest => Argument.printPieces group ++ Argument.printMore rest

/-- Arguments behind others, each behind a comma. -/
def Argument.printMore : List (List Argument) → List Char
  | [] => []
  | group :: rest => ',' :: Argument.printPieces group ++ Argument.printMore rest

end

def Node.print : Node → List Char
  | .text s => s.toList
  | .call name arguments => (Argument.call name arguments).print

def Declaration.print (d : Declaration) : List Char :=
  d.property.toList ++ ':' :: d.value.flatMap Node.print ++ [';']

/-- A block of declarations behind what they apply to. -/
def Declaration.printBlock (selector : String) (declarations : List Declaration) : List Char :=
  selector.toList ++ '{' :: declarations.flatMap Declaration.print ++ ['}']

def KeyframeStep.print (step : KeyframeStep) : List Char :=
  Declaration.printBlock step.selector step.declarations

def Keyframes.print (k : Keyframes) : List Char :=
  "@keyframes ".toList ++ k.name.toList ++ '{' :: k.steps.flatMap KeyframeStep.print ++ ['}']

mutual

def Item.print : Item → List Char
  | .declaration d => d.print
  | .pseudo b => Declaration.printBlock b.selector b.declarations
  | .conditional name arguments items =>
    '@' :: name.toList ++ '(' :: Argument.printGroups arguments ++ ')' :: '{' ::
      Item.printAll items ++ ['}']
  | .keyframes k => k.print
  | .comment text => '/' :: '*' :: text.toList ++ ['*', '/']

def Item.printAll : List Item → List Char
  | [] => []
  | item :: rest => item.print ++ Item.printAll rest

end

/-- The source that items are printed as. -/
def Item.source (items : List Item) : String := String.ofList (Item.printAll items)

namespace Text

def IsName (s : String) : Prop := s ≠ "" ∧ ∀ c ∈ s.toList, isNameChar c = true

/-- The texts among some pieces, where other pieces count as `none`: no text is empty or next to
another, and there are no blanks at either end. -/
structure Separated (pieces : List (Option String)) : Prop where
  nonempty : ∀ piece ∈ pieces, piece ≠ some ""
  apart : pieces.IsChain fun a b => a = none ∨ b = none
  start : ∀ s ∈ pieces.head?.join, ∀ c ∈ s.toList.head?, isBlank c = false
  finish : ∀ s ∈ pieces.getLast?.join, ∀ c ∈ s.toList.getLast?, isBlank c = false

/-- At sign, name and parenthesis somewhere in a text. -/
def HoldsCall (cs : List Char) : Prop :=
  ∃ before name after, name ≠ [] ∧ (∀ c ∈ name, isNameChar c = true) ∧
    cs = before ++ '@' :: name ++ '(' :: after

/-- What a declared value may have as text. -/
structure IsValueText (cs : List Char) : Prop where
  chars : ∀ c ∈ cs, c ≠ ';' ∧ c ≠ '}' ∧ c ≠ ':' ∧ (isBlank c = true → c = ' ')
  spaces : cs.IsChain fun a b => a ≠ ' ' ∨ b ≠ ' '
  noCall : ¬ HoldsCall cs

/-- Text in front of an opening brace, without blanks. -/
def IsSelector (s : String) : Prop := ∀ c ∈ s.toList, isBlank c = false ∧ c ≠ '{'

end Text

def Argument.text? : Argument → Option String
  | .text s => some s
  | _ => none

def Node.text? : Node → Option String
  | .text s => some s
  | .call .. => none

/-- An argument in which text stands alone is not numeric. -/
def Argument.IsGroup (pieces : List Argument) : Prop :=
  Text.Separated (pieces.map Argument.text?) ∧ ∀ s, pieces = [.text s] → parseNumber s = none

mutual

def Argument.WellFormed : Argument → Prop
  | .text _ => True
  | .number _ => False
  | .call name arguments =>
    Text.IsName name ∧ arguments ≠ [[]] ∧ Argument.WellFormedGroups arguments

def Argument.WellFormedPieces : List Argument → Prop
  | [] => True
  | a :: rest => a.WellFormed ∧ Argument.WellFormedPieces rest

def Argument.WellFormedGroups : List (List Argument) → Prop
  | [] => True
  | group :: rest =>
    Argument.IsGroup group ∧ Argument.WellFormedPieces group ∧ Argument.WellFormedGroups rest

end

def Node.WellFormed : Node → Prop
  | .text s => Text.IsValueText s.toList
  | .call name arguments => (Argument.call name arguments).WellFormed

structure Declaration.WellFormed (d : Declaration) : Prop where
  property : Text.IsName d.property
  separated : Text.Separated (d.value.map Node.text?)
  nodes : ∀ node ∈ d.value, node.WellFormed

/-- A step must not be taken for the end of its block, a stray semicolon or a comment. -/
structure KeyframeStep.WellFormed (step : KeyframeStep) : Prop where
  selector : Text.IsSelector step.selector
  start : ∀ t ∈ ["\x7d", ";", "#", "/*", "//"], ¬ t.toList <+: step.selector.toList
  declarations : ∀ d ∈ step.declarations, d.WellFormed

mutual

def Item.WellFormed : Item → Prop
  | .declaration d => d.WellFormed
  | .pseudo b =>
    Text.IsSelector b.selector ∧ [':'] <+: b.selector.toList ∧ ∀ d ∈ b.declarations, d.WellFormed
  | .conditional name arguments items =>
    (∀ c ∈ name.toList, Text.isNameChar c = true) ∧ name ≠ "keyframes" ∧ arguments ≠ [[]] ∧
      Argument.WellFormedGroups arguments ∧ Item.WellFormedAll items
  | .keyframes k => k.name ≠ "" ∧ Text.IsSelector k.name ∧ ∀ step ∈ k.steps, step.WellFormed
  | .comment text => ¬ "*/".toList <:+: text.toList

def Item.WellFormedAll : List Item → Prop
  | [] => True
  | item :: rest => item.WellFormed ∧ Item.WellFormedAll rest

end

section Decidable

-- Quantifiers over the characters of a text run through the text, not through all characters.
local instance decidableForallMemList {p : Char → Prop} [DecidablePred p] (cs : List Char) :
    Decidable (∀ c ∈ cs, p c) :=
  List.decidableBAll p cs

local instance decidableForallMemOption {p : Char → Prop} [DecidablePred p] (c : Option Char) :
    Decidable (∀ d ∈ c, p d) :=
  Option.decidableForallMem c

namespace Text

theorem takeWhile_isNameChar {name : List Char} (h : ∀ c ∈ name, isNameChar c = true)
    (after : List Char) : (name ++ '(' :: after).takeWhile isNameChar = name ∧
      (name ++ '(' :: after).dropWhile isNameChar = '(' :: after := by
  have hparen : ¬ isNameChar '(' = true := by decide
  rw [List.takeWhile_append_of_pos h, List.dropWhile_append_of_pos h,
    List.takeWhile_cons_of_neg hparen, List.dropWhile_cons_of_neg hparen, List.append_nil]
  exact ⟨rfl, rfl⟩

/-- Behind an at sign, a name and a parenthesis. -/
def callAhead (cs : List Char) : Bool :=
  !(cs.takeWhile isNameChar).isEmpty && (cs.dropWhile isNameChar).head? == some '('

theorem holdsCall_iff {cs : List Char} :
    HoldsCall cs ↔ ∃ tail ∈ cs.tails, tail.head? = some '@' ∧ callAhead tail.tail = true := by
  constructor
  · rintro ⟨before, name, after, hne, hname, rfl⟩
    refine ⟨'@' :: name ++ '(' :: after, ?_, rfl, ?_⟩
    · rw [List.mem_tails, List.append_assoc]
      exact List.suffix_append _ _
    · obtain ⟨htake, hdrop⟩ := takeWhile_isNameChar hname after
      simp [callAhead, htake, hdrop, hne]
  · rintro ⟨tail, htail, hhead, hcall⟩
    obtain ⟨before, rfl⟩ := (List.mem_tails _ _).mp htail
    obtain ⟨rest, rfl⟩ := List.head?_eq_some_iff.mp hhead
    simp only [callAhead, List.tail_cons, Bool.and_eq_true, Bool.not_eq_true', beq_iff_eq] at hcall
    obtain ⟨hne, hparen⟩ := hcall
    obtain ⟨after, hafter⟩ := List.head?_eq_some_iff.mp hparen
    refine ⟨before, rest.takeWhile isNameChar, after, by simpa using hne, ?_, ?_⟩
    · exact fun c hc => List.mem_takeWhile_imp hc
    · rw [← hafter]
      simp

instance (cs : List Char) : Decidable (HoldsCall cs) := decidable_of_iff _ holdsCall_iff.symm

instance (s : String) : Decidable (IsName s) := inferInstanceAs (Decidable (_ ∧ _))

instance (s : String) : Decidable (IsSelector s) := inferInstanceAs (Decidable (∀ _ ∈ _, _))

instance (pieces : List (Option String)) : Decidable (Separated pieces) :=
  decidable_of_iff (_ ∧ _ ∧ _ ∧ _)
    ⟨fun ⟨h₁, h₂, h₃, h₄⟩ => ⟨h₁, h₂, h₃, h₄⟩, fun ⟨h₁, h₂, h₃, h₄⟩ => ⟨h₁, h₂, h₃, h₄⟩⟩

instance (cs : List Char) : Decidable (IsValueText cs) :=
  decidable_of_iff (_ ∧ _ ∧ _)
    ⟨fun ⟨h₁, h₂, h₃⟩ => ⟨h₁, h₂, h₃⟩, fun ⟨h₁, h₂, h₃⟩ => ⟨h₁, h₂, h₃⟩⟩

end Text

namespace Argument

instance (arguments : List (List Argument)) : Decidable (arguments = [[]]) :=
  match arguments with
  | [[]] => .isTrue rfl
  | [] | (_ :: _) :: _ | [] :: _ :: _ => .isFalse (by simp)

instance (pieces : List Argument) : Decidable (IsGroup pieces) :=
  have : Decidable (∀ s, pieces = [.text s] → parseNumber s = none) :=
    match pieces with
    | [.text s] => decidable_of_iff ((parseNumber s).isNone = true) (by simp)
    | [] | [.number _] | [.call ..] | _ :: _ :: _ => .isTrue (by simp)
  inferInstanceAs (Decidable (_ ∧ _))

mutual

def decidableWellFormed : (a : Argument) → Decidable a.WellFormed
  | .text _ => .isTrue trivial
  | .number _ => .isFalse id
  | .call _ arguments =>
    have := decidableWellFormedGroups arguments
    inferInstanceAs (Decidable (_ ∧ _ ∧ _))

def decidableWellFormedPieces : (pieces : List Argument) → Decidable (WellFormedPieces pieces)
  | [] => .isTrue trivial
  | a :: rest =>
    have := decidableWellFormed a
    have := decidableWellFormedPieces rest
    inferInstanceAs (Decidable (_ ∧ _))

def decidableWellFormedGroups :
    (groups : List (List Argument)) → Decidable (WellFormedGroups groups)
  | [] => .isTrue trivial
  | group :: rest =>
    have := decidableWellFormedPieces group
    have := decidableWellFormedGroups rest
    inferInstanceAs (Decidable (_ ∧ _ ∧ _))

end

instance (a : Argument) : Decidable a.WellFormed := decidableWellFormed a

instance (groups : List (List Argument)) : Decidable (WellFormedGroups groups) :=
  decidableWellFormedGroups groups

end Argument

instance (node : Node) : Decidable node.WellFormed :=
  match node with
  | .text s => inferInstanceAs (Decidable (Text.IsValueText s.toList))
  | .call name arguments => inferInstanceAs (Decidable (Argument.call name arguments).WellFormed)

instance (d : Declaration) : Decidable d.WellFormed :=
  decidable_of_iff (_ ∧ _ ∧ _)
    ⟨fun ⟨h₁, h₂, h₃⟩ => ⟨h₁, h₂, h₃⟩, fun ⟨h₁, h₂, h₃⟩ => ⟨h₁, h₂, h₃⟩⟩

instance (step : KeyframeStep) : Decidable step.WellFormed :=
  decidable_of_iff (_ ∧ _ ∧ _)
    ⟨fun ⟨h₁, h₂, h₃⟩ => ⟨h₁, h₂, h₃⟩, fun ⟨h₁, h₂, h₃⟩ => ⟨h₁, h₂, h₃⟩⟩

namespace Item

mutual

def decidableWellFormed : (item : Item) → Decidable item.WellFormed
  | .declaration d => inferInstanceAs (Decidable d.WellFormed)
  | .pseudo _ => inferInstanceAs (Decidable (_ ∧ _ ∧ _))
  | .conditional _ _ items =>
    have := decidableWellFormedAll items
    inferInstanceAs (Decidable (_ ∧ _ ∧ _ ∧ _ ∧ _))
  | .keyframes _ => inferInstanceAs (Decidable (_ ∧ _ ∧ _))
  | .comment _ => inferInstanceAs (Decidable (¬ _))

def decidableWellFormedAll : (items : List Item) → Decidable (WellFormedAll items)
  | [] => .isTrue trivial
  | item :: rest =>
    have := decidableWellFormed item
    have := decidableWellFormedAll rest
    inferInstanceAs (Decidable (_ ∧ _))

end

instance (items : List Item) : Decidable (WellFormedAll items) := decidableWellFormedAll items

end Item

end Decidable

end GridCss

/-!
# The items of a source

A source is a list of items. Declarations hold text and calls; conditionals hold items again.
-/

namespace GridCss

/-- A piece of an argument. An argument is a list of pieces, since text and calls may be mixed. -/
inductive Argument where
  | text (s : String)
  | number (x : Float)
  | call (name : String) (arguments : List (List Argument))
  deriving Inhabited

inductive Node where
  | text (s : String)
  | call (name : String) (arguments : List (List Argument))
  deriving Inhabited

structure Declaration where
  property : String
  value : List Node
  deriving Inhabited

/-- `:selector { declarations }`. The blocks of a source are numbered in document order. -/
structure PseudoBlock where
  id : Nat
  selector : String
  declarations : List Declaration
  deriving Inhabited

structure KeyframeStep where
  selector : String
  declarations : List Declaration
  deriving Inhabited

structure Keyframes where
  name : String
  steps : List KeyframeStep
  deriving Inhabited

inductive Item where
  | declaration (d : Declaration)
  | pseudo (b : PseudoBlock)
  | conditional (name : String) (arguments : List (List Argument)) (items : List Item)
  | keyframes (k : Keyframes)
  | comment (text : String)
  deriving Inhabited

/-- The keyframes names of a list of items, nested ones included, in document order, as often as
they occur. -/
def Item.allKeyframesNames : List Item → List String
  | [] => []
  | .keyframes k :: rest => k.name :: allKeyframesNames rest
  | .conditional _ _ items :: rest => allKeyframesNames items ++ allKeyframesNames rest
  | .declaration _ :: rest | .pseudo _ :: rest | .comment _ :: rest => allKeyframesNames rest

/-- Every keyframes name once, in the order of first occurrence. -/
def Item.keyframesNames (items : List Item) : List String :=
  (allKeyframesNames items).eraseDups

end GridCss

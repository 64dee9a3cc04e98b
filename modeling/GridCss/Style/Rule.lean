import GridCss.Text.Split

/-!
# Rules

A declared property with its value becomes the text of a rule. Some properties stand for several
rules, and the names of animations get the number of their cell where cells have keyframes of their
own.
-/

namespace GridCss

namespace Property

/-- The properties that refer to keyframes by name. -/
def isAnimation (property : String) : Bool :=
  property == "animation" || property == "animation-name"

def isTransition (property : String) : Bool := property == "transition"

end Property

/-- The text of a rule and the property that was declared. -/
structure Rule where
  property : String
  text : String
  deriving DecidableEq, Repr

namespace Rule

def cellName (name : String) (index : Nat) : String := s!"{name}-{index}"

def isComma (c : Char) : Bool := c == ','

def renameNames (value : String) (index : Nat) : String :=
  ", ".intercalate ((Text.pieces isComma value).map fun name => cellName (Text.trim name) index)

/-- The word of a layer that names keyframes, for one cell: the first that is declared, or else the
first of all. -/
def renameWord (words : List String) (index : Nat) (declared : List String) : List String :=
  words.modify ((words.findIdx? declared.contains).getD 0) fun word => cellName word index

/-- The names in the layers of an animation, for one cell. -/
def renameLayers (value : String) (index : Nat) (declared : List String) : String :=
  ", ".intercalate ((Text.pieces isComma value).map fun layer =>
    " ".intercalate (renameWord (Text.words layer) index declared))

def plain (property value : String) : String := property ++ ": " ++ value ++ ";"

def isSizeSeparator (c : Char) : Bool :=
  c == ',' || c == '，' || c == '/' || Text.isBlank c

/-- Width and height from one or two values. -/
def size (width height value : String) : String :=
  let parts := Text.fields isSizeSeparator value
  let w := parts.head?.getD ""
  let h := parts[1]?.getD w
  plain width w ++ " " ++ plain height h

/-- The text of a rule. With `rename`, animations refer to the keyframes of that cell. -/
def write (property value : String) (rename : Option Nat) (declared : List String) : String :=
  match property with
  | "clip-path" =>
    plain "-webkit-clip-path" value ++ " " ++ plain "clip-path" value ++ " overflow: hidden;"
  | "animation-name" =>
    plain property (match rename with
      | some index => renameNames value index
      | none => value)
  | "animation" =>
    plain property (match rename with
      | some index => renameLayers value index declared
      | none => value)
  | "size" => size "width" "height" value
  | "min-size" => size "min-width" "min-height" value
  | "max-size" => size "max-width" "max-height" value
  | _ => plain property value

end Rule
end GridCss

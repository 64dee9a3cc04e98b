import GridCss.Text.Blank

/-!
# Trimming and splitting

All functions work on the characters of a text; blank means `isBlank`.
-/

namespace GridCss.Text

/-- Without the last characters that satisfy `p`. -/
def dropEndWhile (p : Char → Bool) (cs : List Char) : List Char :=
  (cs.reverse.dropWhile p).reverse

def trimStart (s : String) : String :=
  String.ofList (s.toList.dropWhile isBlank)

def trimEnd (s : String) : String :=
  String.ofList (dropEndWhile isBlank s.toList)

def trim (s : String) : String :=
  String.ofList (dropEndWhile isBlank (s.toList.dropWhile isBlank))

/-- The pieces between the characters that satisfy `p`; empty pieces are kept, so there is always
at least one. -/
def pieces (p : Char → Bool) (s : String) : List String :=
  (s.toList.splitOnP p).map String.ofList

/-- The non-empty pieces between the characters that satisfy `p`. -/
def fields (p : Char → Bool) (s : String) : List String :=
  ((s.toList.splitOnP p).filter (! ·.isEmpty)).map String.ofList

/-- The words of a text, separated by blanks. -/
def words (s : String) : List String := fields isBlank s

def startsWith (s p : String) : Bool := p.toList.isPrefixOf s.toList

end GridCss.Text

import GridCss.Number.Literal
import GridCss.Text.Blank

/-!
# Tokens of arithmetic text

Numbers without sign, the five operators and parentheses. Blanks between them are skipped; any other
character makes the text no arithmetic.
-/

namespace GridCss.Arithmetic

inductive Token where
  | number (x : Float)
  | plus | minus | star | slash | percent
  | opening | closing
  deriving DecidableEq

namespace Token

def ofChar? : Char → Option Token
  | '+' => some plus
  | '-' => some minus
  | '*' => some star
  | '/' => some slash
  | '%' => some percent
  | '(' => some opening
  | ')' => some closing
  | _ => none

end Token

/-- The tokens of a text, numbers taken as long as possible. -/
def tokens? (cs : List Char) : Option (List Token) :=
  match cs with
  | [] => some []
  | c :: rest =>
    if Text.isBlank c then tokens? rest
    else
      match Token.ofChar? c with
      | some t => (tokens? rest).map (t :: ·)
      | none =>
        match h : Literal.scan (c :: rest) with
        | some (l, after) =>
          have : after.length < rest.length + 1 := Literal.scan_length_lt h
          (tokens? after).map (.number l.toFloat :: ·)
        | none => none
termination_by cs.length

end GridCss.Arithmetic

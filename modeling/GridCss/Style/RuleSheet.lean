/-!
# Rule sheets

Rules filed under selectors. The groups stand in the order in which their selectors first received
a rule, the rules of a group in the order in which they were filed.
-/

namespace GridCss

/-- `selector { rules }` -/
structure RuleGroup where
  selector : String
  rules : List String
  deriving DecidableEq, Repr

def RuleGroup.text (g : RuleGroup) : String :=
  g.selector ++ " \x7b " ++ " ".intercalate g.rules ++ " \x7d"

structure RuleSheet where
  groups : List RuleGroup := []
  deriving DecidableEq, Repr, Inhabited

namespace RuleSheet

def size (s : RuleSheet) : Nat := s.groups.length

def isEmpty (s : RuleSheet) : Bool := s.groups.isEmpty

/-- The place of the group of a selector. -/
def slot? (s : RuleSheet) (selector : String) : Option Nat :=
  s.groups.findIdx? (·.selector == selector)

/-- Files rules under a selector; a list without rules leaves no trace. -/
def extend (s : RuleSheet) (selector : String) (rules : List String) : RuleSheet :=
  if rules.isEmpty then s
  else
    match s.slot? selector with
    | some i => ⟨s.groups.modify i fun g => { g with rules := g.rules ++ rules }⟩
    | none => ⟨s.groups ++ [⟨selector, rules⟩]⟩

def push (s : RuleSheet) (selector rule : String) : RuleSheet := s.extend selector [rule]

/-- The groups of the selectors to keep, one on a line. -/
def render (s : RuleSheet) (keep : String → Bool) : String :=
  "\n".intercalate ((s.groups.filter (keep ·.selector)).map RuleGroup.text)

end RuleSheet
end GridCss

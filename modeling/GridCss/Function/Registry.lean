import GridCss.Grid
import GridCss.Random.Words
import GridCss.Value.Memo

/-!
# Functions and their names

A function sees the cell for which it is called and its arguments, may recall results and draw
random words, and returns a value or none. A registry holds the functions by name: predicates for
conditionals, functions for values, and among the latter the mathematical ones, which give way to
others of the same name.
-/

namespace GridCss

/-- What functions may change while they run. -/
structure Scope where
  memo : Memo
  words : Words
  deriving Inhabited

abbrev Function := Cell → List Value → StateM Scope (Option Value)

namespace Function

/-- A function that neither recalls nor draws. -/
def pure (f : Cell → List Value → Option Value) : Function :=
  fun cell arguments => return f cell arguments

/-- A function that draws random words. -/
def drawing (f : List Value → Words → Option Value × Words) : Function :=
  fun _ arguments => modifyGet fun scope =>
    let (value, words) := f arguments scope.words
    (value, { scope with words := words })

end Function

/-- Functions by name, each name once. -/
abbrev FunctionTable := List (String × Function)

namespace FunctionTable

def get? (t : FunctionTable) (name : String) : Option Function := List.lookup name t

/-- Adds a function, or replaces the one of the same name. -/
def insert (t : FunctionTable) (name : String) (f : Function) : FunctionTable :=
  (name, f) :: t.filter (·.1 != name)

/-- The names in increasing order. -/
def names (t : FunctionTable) : List String := (t.map Prod.fst).mergeSort (! · > ·)

end FunctionTable

structure Registry where
  predicates : FunctionTable := []
  functions : FunctionTable := []
  math : FunctionTable := []
  deriving Inhabited

namespace Registry

def empty : Registry := {}

def predicate? (r : Registry) (name : String) : Option Function := r.predicates.get? name

/-- The function of a name in a value. -/
def function? (r : Registry) (name : String) : Option Function :=
  (r.functions.get? name).or (r.math.get? name)

def addPredicate (r : Registry) (name : String) (f : Function) : Registry :=
  { r with predicates := r.predicates.insert name f }

def addFunction (r : Registry) (name : String) (f : Function) : Registry :=
  { r with functions := r.functions.insert name f }

/-- The names of a table in quotes. -/
def namesText (t : FunctionTable) : String :=
  "[" ++ ", ".intercalate (t.names.map fun name => "\"" ++ name ++ "\"") ++ "]"

/-- All names on one line. -/
def summary (r : Registry) : String :=
  "Registry \x7b predicates: " ++ namesText r.predicates ++ ", functions: " ++
    namesText r.functions ++ ", math: " ++ namesText r.math ++ " \x7d"

end Registry
end GridCss

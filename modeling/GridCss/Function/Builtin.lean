import GridCss.Function.Generative
import GridCss.Function.Math
import GridCss.Function.Predicate

/-! # The functions known from the start -/

namespace GridCss

def Registry.builtin : Registry :=
  { predicates := Predicate.table, functions := Generative.table, math := Math.table }

end GridCss

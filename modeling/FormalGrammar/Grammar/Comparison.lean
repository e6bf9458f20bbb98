import FormalGrammar.Expression
import FormalGrammar.Grammar.Basic

/-!
# Comparison

Values and grammars are compared for equality, and equal ones agree in their
hash. The hash of a grammar covers its language and its names alone, so that
unequal grammars may agree in it too.
-/

namespace FormalGrammar

/-- What can be compared. -/
inductive Comparand where
  | value (v : Value)
  | grammar (g : Grammar)

/-- The outcome of a comparison. -/
structure Comparison where
  equal : Bool
  /-- Whether the hashes agree, where that is settled. -/
  sameHash : Option Bool
  deriving DecidableEq, Repr

/-- Compare two things. A grammar never equals a value. -/
def Comparand.compare : Comparand → Comparand → Except Error Comparison
  | .value v, .value w =>
    if v.same w then do
      checkHashable [v, w]
      return ⟨true, some true⟩
    else return ⟨false, none⟩
  | .grammar g, .grammar h => return ⟨g.same h, some (g.hashKey == h.hashKey)⟩
  | .value _, .grammar _ | .grammar _, .value _ => return ⟨false, none⟩

/-- The number of different values that expressions have. -/
def countDistinct (scope : String → Option Value) (es : List Expression) : Except Error Nat := do
  let values ← Expression.evalMembers scope es
  return (Value.distinct values).length

end FormalGrammar

import FormalGrammar.Term.Basic

/-!
# Concatenation and choice

Terms in order are spliced: a sequence contributes its own terms and the empty
word contributes nothing. Terms to choose from are spliced likewise: a choice
contributes its choices. Both go one level deep, and a single term needs
neither, so it is left as it is.
-/

namespace FormalGrammar.Term

/-- The terms of a list in order, spliced into one term. -/
def concat (ts : List Term) : Term := ofItems (ts.flatMap items)

/-- A term followed by others. A term alone is left as it is. -/
def followedBy (first : Term) : List Term → Term
  | [] => first
  | t :: ts => concat (first :: t :: ts)

/-- A choice between a term and others, spliced into one term. A term alone is left as it is. -/
def orElse (first : Term) : List Term → Term
  | [] => first
  | t :: ts => .alternatives first.preferred (first.others ++ (t :: ts).flatMap choices)

/-- The choices of a choice are those of its terms in order, each as often as it occurs. -/
theorem choices_orElse (first : Term) (ts : List Term) :
    (orElse first ts).choices = (first :: ts).flatMap choices := by
  cases ts with
  | nil => simp [orElse]
  | cons t ts =>
    rw [List.flatMap_cons]
    rfl

end FormalGrammar.Term

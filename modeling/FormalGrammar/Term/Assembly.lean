import FormalGrammar.Error
import FormalGrammar.Term.Flatten

/-!
# Assemblies

An assembly gathers terms one at a time: the choices of a choice, the items of
a sequence, or the one definition of a production. Attaching splices exactly
like concatenation and choice do; a definition takes one term, as it is.
-/

namespace FormalGrammar

/-- Terms gathered so far, and for what. -/
inductive Assembly where
  | choice (terms : List Term)
  | series (terms : List Term)
  | definition (term : Option Term)

namespace Assembly

/-- Attach a term. Only a definition that is there already refuses it. -/
def attach (t : Term) : Assembly → Except Error Assembly
  | .choice ts => .ok (.choice (ts ++ t.choices))
  | .series ts => .ok (.series (ts ++ t.items))
  | .definition none => .ok (.definition (some t))
  | .definition (some _) => reject .alreadyDefined

/-- Attach terms in order. -/
def attachAll : List Term → Assembly → Except Error Assembly
  | [], a => .ok a
  | t :: ts, a => do attachAll ts (← a.attach t)

/-- The term that has been gathered. A choice and a definition need at least one. -/
def build : Assembly → Except Error Term
  | .choice [] => reject .emptyAlternatives
  | .choice (t :: ts) => .ok (Term.ofChoices t ts)
  | .series ts => .ok (Term.ofItems ts)
  | .definition none => reject .notDefined
  | .definition (some t) => .ok t

/-- A series gathers the items of all terms in order. -/
theorem attachAll_series (ts us : List Term) :
    attachAll us (.series ts) = .ok (.series (ts ++ us.flatMap Term.items)) := by
  induction us generalizing ts with
  | nil => simp [attachAll]
  | cons u us ih =>
    rw [List.flatMap_cons, ← List.append_assoc]
    exact ih (ts ++ u.items)

/-- A choice gathers the choices of all terms in order. -/
theorem attachAll_choice (ts us : List Term) :
    attachAll us (.choice ts) = .ok (.choice (ts ++ us.flatMap Term.choices)) := by
  induction us generalizing ts with
  | nil => simp [attachAll]
  | cons u us ih =>
    rw [List.flatMap_cons, ← List.append_assoc]
    exact ih (ts ++ u.choices)

end Assembly

end FormalGrammar

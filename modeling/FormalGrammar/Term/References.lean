import FormalGrammar.Term.Basic

/-!
# References

The names that a term refers to, in the order in which a walk through the term
from left to right first meets them. The walk keeps the terms still to be seen
on a stack; beside it stands the plain list of all occurrences.
-/

namespace FormalGrammar

/-- Add a name at the end, unless it has been noted before. -/
def noteName (seen : List String) (name : String) : List String :=
  if seen.contains name then seen else seen ++ [name]

/-- The names of a list in the order of their first occurrence. -/
def firstOccurrences (names : List String) : List String := names.foldl noteName []

namespace Term

/-- The name that a term itself is a reference to. -/
def reference? : Term → Option String
  | .nonTerminal name => some name
  | _ => none

/-- The names that a term refers to, from left to right, as often as they occur. -/
def occurrences (t : Term) : List String := t.nodes.filterMap reference?

/-- Walk through the terms of a stack and all terms inside them, noting the names met. -/
def collectReferences (seen : List String) : List Term → List String
  | [] => seen
  | t :: stack =>
    let noted := match t.reference? with
      | some name => noteName seen name
      | none => seen
    collectReferences noted (t.children ++ stack)
termination_by stack => totalSize stack
decreasing_by
  simp only [totalSize, totalSize_append, size_eq t]
  omega

/-- The names that a term refers to, each once, in the order of their first occurrence. -/
def references (t : Term) : List String := collectReferences [] [t]

/-- The walk notes the references at all nodes in order. -/
theorem collectReferences_eq (seen : List String) (stack : List Term) :
    collectReferences seen stack = ((allNodes stack).filterMap reference?).foldl noteName seen := by
  fun_induction collectReferences seen stack with
  | case1 seen => rfl
  | case2 seen t stack noted ih =>
    rw [ih, allNodes, allNodes_append, nodes_eq, List.cons_append, List.filterMap_cons]
    cases h : t.reference? <;> simp [noted, h]

end Term

end FormalGrammar

import FormalGrammar.Term.Ebnf
import FormalGrammar.Term.References
import FormalGrammar.Term.Same
import FormalGrammar.Term.Trace
import FormalGrammar.Term.Visit

/-!
# Productions

A production gives a name to a term, its definition. It knows where it was
written, which is shown but plays no part in equality.
-/

namespace FormalGrammar

/-- A named rule of a grammar. -/
structure Production where
  name : String
  definition : Term
  /-- Where the production was written. -/
  location : String

namespace Production

/-- The names that the definition refers to, each once, in the order of first occurrence. -/
def references (p : Production) : List String := p.definition.references

/-- Whether two productions have the same name and equal definitions. -/
def same (p q : Production) : Bool := p.name == q.name && p.definition.same q.definition

/-- A production as messages show it. -/
def display (p : Production) : String :=
  "Production(name=" ++ Text.quote p.name ++ ", definition=" ++ p.definition.display ++ ")"

/-- A production in EBNF, where `atName` writes the references. -/
def ebnfWith {τ : Type} {m : Type → Type} [Monad m] (style : EbnfStyle τ) (atName : String → m τ)
    (p : Production) : m τ := do
  let body ← p.definition.ebnfWith style atName false
  return style.between (p.name ++ " = ") body " ;"

/-- A production in EBNF. -/
def ebnf {τ : Type} (style : EbnfStyle τ) (p : Production) : τ :=
  Id.run (p.ebnfWith style fun name => pure (style.text name))

/-- Show a production to a visitor, and its definition if the visitor looks inside. -/
def visit (visitor : Visitor) (p : Production) : Visitor.Visit Unit := do
  if ← visitor.meet .production (.production p.name) then
    p.definition.visit visitor

/-- Whether two lists hold equal productions, pair by pair. -/
def sameAll : List Production → List Production → Bool
  | [], [] => true
  | p :: ps, q :: qs => p.same q && sameAll ps qs
  | _, _ => false

end Production

end FormalGrammar

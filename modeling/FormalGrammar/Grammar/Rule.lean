import FormalGrammar.Expression
import FormalGrammar.Grammar.Resolution

/-!
# Written rules

A rule is a production as it is written, with expressions for its terms. The
expressions are evaluated when the rule is added to a builder, so that the first
rule with a fault decides how a whole definition fails.
-/

namespace FormalGrammar

/-- A production as it is written. -/
structure Rule where
  name : Value
  /-- The terms between which the production chooses. -/
  terms : List Expression
  location : String

namespace Builder

/-- Add a rule, after evaluating its terms. Without a term there is nothing to add, whatever the
builder would say to the name. -/
def addRule (b : Builder) (rule : Rule) : Except Error Builder := do
  match ← Expression.evalAll (fun _ => none) rule.terms with
  | [] => .error .misapplied
  | first :: rest => b.add rule.name first rest rule.location

/-- Add rules in order, up to the first that fails. -/
def addRules (b : Builder) : List Rule → Except Error Builder
  | [] => .ok b
  | rule :: rules => do
    let b ← b.addRule rule
    b.addRules rules

/-- Start a builder and add rules to it. -/
def ofRules (language header : Value) (rules : List Rule) : Except Error Builder := do
  let b ← start language header
  b.addRules rules

end Builder

/-- Resolve the grammar that consists of rules. -/
def Resolution.ofRules (threshold : Level) (language header : Value) (rules : List Rule)
    (settings : List Setting) : Resolution :=
  match Builder.ofRules language header rules with
  | .error error => .failed error
  | .ok b => (b.build threshold settings).2

end FormalGrammar

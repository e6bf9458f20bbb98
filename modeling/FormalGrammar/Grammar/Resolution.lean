import FormalGrammar.Grammar.Basic
import FormalGrammar.Grammar.Builder
import FormalGrammar.Grammar.Log
import FormalGrammar.Grammar.ReferenceGraph

/-!
# Resolution

Resolution turns the productions of a builder into a grammar, or fails. Every
reference has to lead to a production; there has to be a root; and every
production has to be reached from a root, unless the options have it left out
or kept all the same. The first check that fails decides.
-/

namespace FormalGrammar

/-- The resolution options among settings. Settings are members of a set, so each of them has to
be able to be one; those that are no resolution options have no effect. -/
def Policy.ofSettings (settings : List Setting) : Except Error Policy := do
  checkHashable (settings.filterMap Setting.value?)
  return Policy.ofOptions (settings.filterMap Setting.resolution?)

/-- What became of a resolution, and what it reported. -/
structure Resolution where
  outcome : Except Error Grammar
  log : List Report

namespace Resolution

/-- A resolution that failed without a report. -/
def failed (error : Error) : Resolution := ⟨.error error, []⟩

/-- A resolution that produced a grammar, with the reports that a threshold lets through. -/
def succeeded (threshold : Level) (grammar : Grammar) (reports : List Report) : Resolution :=
  ⟨.ok grammar, reports.flatMap (Report.emit threshold)⟩

end Resolution

namespace Builder

/-- The grammar that consists of some productions of a builder. -/
def grammarOf (b : Builder) (productions : List Production) : Grammar :=
  ⟨b.language, b.header, productions⟩

section Made

variable (b : Builder) (productions : List Production)

/-- A grammar that is made has the language of the builder. -/
@[simp] theorem language_grammarOf : (b.grammarOf productions).language = b.language := rfl

/-- A grammar that is made has the header of the builder. -/
@[simp] theorem header_grammarOf : (b.grammarOf productions).header = b.header := rfl

/-- A grammar is made of just the given productions, in their order. -/
@[simp] theorem productions_grammarOf : (b.grammarOf productions).productions = productions := rfl

/-- The names of a grammar that is made are those of the given productions. -/
@[simp] theorem names_grammarOf :
    (b.grammarOf productions).names = productions.map (·.name) := rfl

/-- The root of a grammar that is made is the first of the given productions. -/
@[simp] theorem root?_grammarOf :
    (b.grammarOf productions).root? = productions.head?.map (·.name) := List.head?_map

end Made

/-- Decide about the productions that were not reached. -/
def settle (threshold : Level) (policy : Policy) (b : Builder) (roots reached : List String) :
    Resolution :=
  let unused := b.names.filter fun name => !reached.contains name
  let resolved (productions : List Production) := Report.resolved productions.length roots
  if unused.isEmpty then
    .succeeded threshold (b.grammarOf b.productions) [resolved b.productions]
  else if policy.skipUnused then
    let kept := b.productions.filter fun p => reached.contains p.name
    .succeeded threshold (b.grammarOf kept) [.skipped unused, resolved kept]
  else if policy.ignoreUnused then
    .succeeded threshold (b.grammarOf b.productions) [.kept unused.length, resolved b.productions]
  else .failed (.resolution (.unused unused))

/-- Resolve a builder under a set of options. -/
def resolveUnder (threshold : Level) (policy : Policy) (b : Builder) : Resolution :=
  let graph := ReferenceGraph.ofProductions b.productions
  if !graph.missing.isEmpty then .failed (.resolution (.undefined graph.missing))
  else if b.productions.isEmpty then
    if policy.allowRootless then .succeeded threshold (b.grammarOf []) [.resolvedEmpty]
    else .failed (.resolution (.rootless b.language))
  else
    let roots := graph.roots policy.allowRootless
    match graph.walk roots with
    | .error error => .failed error
    | .ok reached => b.settle threshold policy roots reached

/-- Resolve a builder under settings. -/
def resolve (threshold : Level) (settings : List Setting) (b : Builder) : Resolution :=
  match Policy.ofSettings settings with
  | .error error => .failed error
  | .ok policy => b.resolveUnder threshold policy

/-- Resolve a builder and close it if that succeeds. -/
def build (threshold : Level) (settings : List Setting) (b : Builder) : Builder × Resolution :=
  let resolution := b.resolve threshold settings
  match resolution.outcome with
  | .ok _ => ({ b with built := true }, resolution)
  | .error _ => (b, resolution)

end Builder

end FormalGrammar

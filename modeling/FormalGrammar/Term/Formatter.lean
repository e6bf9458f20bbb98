import FormalGrammar.Term.Token

/-!
# Formatters

A formatter turns terms into text, or into anything else, from the inside out:
what becomes of a node depends on its token and on what became of its children,
which are formatted from left to right. A parameter is handed down on the way.
What becomes of a reference can be left to the caller, and may then fail.
-/

namespace FormalGrammar

/-- How terms are formatted. -/
structure Formatter (π α : Type) where
  /-- The parameter for the children of a node of some kind. -/
  inside : Kind → π → π
  /-- What becomes of a node, given its parameter, its token and what became of its children. -/
  write : π → Token → List α → α

namespace Term

variable {π α : Type}

mutual

/-- Format a term, where `atName` formats the references. -/
def formatWith {m : Type → Type} [Monad m] (f : Formatter π α) (atName : π → String → m α)
    (param : π) : Term → m α
  | .literal s flag => return f.write param (.literal s flag) []
  | .characterSet name excluded => return f.write param (.characterSet name excluded) []
  | .nonTerminal name => atName param name
  | .sequence t ts => do
    let first ← t.formatWith f atName (f.inside .sequence param)
    let rest ← allFormatWith f atName (f.inside .sequence param) ts
    return f.write param (.sequence (1 + ts.length)) (first :: rest)
  | .alternatives t ts => do
    let first ← t.formatWith f atName (f.inside .alternatives param)
    let rest ← allFormatWith f atName (f.inside .alternatives param) ts
    return f.write param (.alternatives (1 + ts.length)) (first :: rest)
  | .optional t => do
    let body ← t.formatWith f atName (f.inside .optional param)
    return f.write param .optional [body]
  | .repetition t min max => do
    let body ← t.formatWith f atName (f.inside .repetition param)
    return f.write param (.repetition min max) [body]
  | .epsilon => return f.write param .epsilon []
termination_by structural t => t

/-- Format the terms of a list from left to right. -/
def allFormatWith {m : Type → Type} [Monad m] (f : Formatter π α) (atName : π → String → m α)
    (param : π) : List Term → m (List α)
  | [] => return []
  | t :: ts => do
    let first ← t.formatWith f atName param
    let rest ← allFormatWith f atName param ts
    return first :: rest
termination_by structural ts => ts

end

/-- Format a term, its references included. -/
def format (f : Formatter π α) (param : π) (t : Term) : α :=
  Id.run (t.formatWith f (fun inner name => pure (f.write inner (.nonTerminal name) [])) param)

end Term

end FormalGrammar

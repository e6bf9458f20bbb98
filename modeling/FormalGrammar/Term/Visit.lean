import FormalGrammar.Term.Display
import FormalGrammar.Term.Token

/-!
# Visits

A visitor looks at nodes of the kinds it handles and records each one it meets.
It descends into a node only after recording it, so that nothing below a node
of another kind is seen. It may fail at a kind that it handles, and what was
recorded before then stays recorded.
-/

namespace FormalGrammar

/-- What a visitor can meet: a production or a term of some kind. -/
inductive VisitKind where
  | production
  | term (kind : Kind)
  deriving DecidableEq, Repr

/-- The name of what a visitor can meet. -/
def VisitKind.label : VisitKind → String
  | .production => "production"
  | .term kind => kind.label

/-- One record of a visitor. -/
inductive Sighting where
  | production (name : String)
  | term (token : Token)

/-- Which kinds a visitor handles and which one it fails at. -/
structure Visitor where
  handled : List VisitKind
  failing : Option VisitKind

namespace Visitor

/-- Where a visitor failed, and how many sightings it had by then. -/
structure Failure where
  kind : VisitKind
  seen : Nat
  deriving DecidableEq, Repr

/-- The wording of a failed visit. -/
def Failure.message (failure : Failure) : String :=
  failure.kind.label ++ " after " ++ toString failure.seen

/-- A visit in progress, with its sightings so far, the last one first. -/
abbrev Visit := ExceptT Failure (StateM (List Sighting))

/-- Meet a node; the answer says whether the visitor looks inside. -/
def meet (visitor : Visitor) (kind : VisitKind) (sighting : Sighting) : Visit Bool := do
  if visitor.handled.contains kind then
    let seen ← get
    if visitor.failing = some kind then
      throw ⟨kind, seen.length⟩
    set (sighting :: seen)
    return true
  else
    return false

/-- Run a visit from the start: its sightings in order, and where it failed, if it did. -/
def run (visit : Visit Unit) : List Sighting × Option Failure :=
  match StateT.run (ExceptT.run visit) [] with
  | (.ok (), seen) => (seen.reverse, none)
  | (.error failure, seen) => (seen.reverse, some failure)

end Visitor

namespace Term

open Visitor (Visit)

mutual

/-- Show a term to a visitor. -/
def visit (visitor : Visitor) : Term → Visit Unit
  | .sequence t ts => do
    if ← visitor.meet (.term .sequence) (.term (.sequence (1 + ts.length))) then
      t.visit visitor
      visitAll visitor ts
  | .alternatives t ts => do
    if ← visitor.meet (.term .alternatives) (.term (.alternatives (1 + ts.length))) then
      t.visit visitor
      visitAll visitor ts
  | .optional t => do
    if ← visitor.meet (.term .optional) (.term .optional) then
      t.visit visitor
  | .repetition t min max => do
    if ← visitor.meet (.term .repetition) (.term (.repetition min max)) then
      t.visit visitor
  | .literal s flag => do
    let _ ← visitor.meet (.term .literal) (.term (.literal s flag))
  | .characterSet name excluded => do
    let _ ← visitor.meet (.term .characterSet) (.term (.characterSet name excluded))
  | .nonTerminal name => do
    let _ ← visitor.meet (.term .nonTerminal) (.term (.nonTerminal name))
  | .epsilon => do
    let _ ← visitor.meet (.term .epsilon) (.term .epsilon)
termination_by structural t => t

/-- Show the terms of a list to a visitor. -/
def visitAll (visitor : Visitor) : List Term → Visit Unit
  | [] => return ()
  | t :: ts => do
    t.visit visitor
    visitAll visitor ts
termination_by structural ts => ts

end

end Term

end FormalGrammar

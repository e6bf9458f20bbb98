import FormalGrammar.Term.Display

/-!
# Traces

A trace follows a term from the top and records the kind and the path of every
node. A node may refuse to be traced, because its kind is the one to fail on or
because its kind is not handled; the first refusal in preorder ends the trace.
-/

namespace FormalGrammar

/-- The kinds and paths of the nodes of a term. -/
inductive Trace where
  | node (kind : Kind) (path : String) (children : List Trace)

namespace Trace

/-- Why a node was not traced. -/
inductive Failure where
  /-- The kind of the node is the one to fail on. -/
  | refused (kind : Kind) (path : String)
  /-- The kind of the node is not handled. -/
  | unhandled (kind : Kind)
  deriving DecidableEq, Repr

/-- The wording of a failed trace; a kind that is not handled leaves nothing to say. -/
def Failure.message : Failure → String
  | .refused kind path => kind.label ++ " at " ++ path
  | .unhandled _ => ""

/-- Which kinds are handled and which one fails. -/
structure Mode where
  handled : List Kind
  failing : Option Kind

/-- Whether a node of a kind can be traced; failing comes before handling. -/
def Mode.enter (mode : Mode) (kind : Kind) (path : String) : Except Failure Unit :=
  if mode.failing = some kind then .error (.refused kind path)
  else if mode.handled.contains kind then .ok ()
  else .error (.unhandled kind)

/-- The path of a child. -/
def childPath (path : String) (index : Nat) : String := path ++ "/" ++ toString index

end Trace

namespace Term

open Trace

mutual

/-- Trace a term from a path. -/
def traceFrom (mode : Mode) (path : String) : Term → Except Failure Trace
  | .sequence t ts => do
    mode.enter .sequence path
    let first ← t.traceFrom mode (childPath path 0)
    let rest ← traceAllFrom mode path 1 ts
    return .node .sequence path (first :: rest)
  | .alternatives t ts => do
    mode.enter .alternatives path
    let first ← t.traceFrom mode (childPath path 0)
    let rest ← traceAllFrom mode path 1 ts
    return .node .alternatives path (first :: rest)
  | .optional t => do
    mode.enter .optional path
    let body ← t.traceFrom mode (childPath path 0)
    return .node .optional path [body]
  | .repetition t _ _ => do
    mode.enter .repetition path
    let body ← t.traceFrom mode (childPath path 0)
    return .node .repetition path [body]
  | .literal .. => do
    mode.enter .literal path
    return .node .literal path []
  | .characterSet .. => do
    mode.enter .characterSet path
    return .node .characterSet path []
  | .nonTerminal _ => do
    mode.enter .nonTerminal path
    return .node .nonTerminal path []
  | .epsilon => do
    mode.enter .epsilon path
    return .node .epsilon path []
termination_by structural t => t

/-- Trace the children of a path from an index on. -/
def traceAllFrom (mode : Mode) (path : String) (index : Nat) :
    List Term → Except Failure (List Trace)
  | [] => return []
  | t :: ts => do
    let first ← t.traceFrom mode (childPath path index)
    let rest ← traceAllFrom mode path (index + 1) ts
    return first :: rest
termination_by structural ts => ts

end

/-- Trace a term from the root path. -/
def trace (mode : Mode) (t : Term) : Except Failure Trace := t.traceFrom mode "r"

end Term

end FormalGrammar

import FormalGrammar.Term.Basic

/-!
# Tokens

A token is one node of a term without what is below it. The tokens of a term,
from the top and from left to right, describe it completely, because a token
fixes how many children follow.
-/

namespace FormalGrammar

/-- One node of a term. -/
inductive Token where
  | literal (text : String) (caseSensitive : Value)
  | characterSet (name : String) (excluded : List Nat)
  | nonTerminal (name : String)
  | sequence (length : Nat)
  | alternatives (length : Nat)
  | optional
  | repetition (min : Nat) (max : Option Nat)
  | epsilon

namespace Term

/-- The topmost node of a term. -/
def token : Term → Token
  | .literal s flag => .literal s flag
  | .characterSet name excluded => .characterSet name excluded
  | .nonTerminal name => .nonTerminal name
  | .sequence _ ts => .sequence (1 + ts.length)
  | .alternatives _ ts => .alternatives (1 + ts.length)
  | .optional _ => .optional
  | .repetition _ min max => .repetition min max
  | .epsilon => .epsilon

/-- The tokens of a term from the top and from left to right. -/
def tokens (t : Term) : List Token := t.nodes.map token

end Term

end FormalGrammar

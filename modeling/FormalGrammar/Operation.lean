import FormalGrammar.Term.Checked

/-!
# Operations

The ways to make a term from values: the factories, which splice the terms
they are given, the constructors, which take them as they are, and the
operators on terms that exist already.
-/

namespace FormalGrammar

/-- Ways to make a term that splice the given terms. -/
inductive Factory where
  | literal
  | caseInsensitive
  | charactersOf
  | anyCharacter
  | nonTerminal
  | epsilon
  | sequence
  | choice
  | optional
  | zeroOrMore
  | oneOrMore
  /-- The least count comes before the terms. -/
  | atLeast
  /-- The least and the greatest count come before the terms. -/
  | between
  /-- The count comes before the terms. -/
  | exactly
  deriving DecidableEq, Repr

/-- Ways to make a term of one kind from exactly the given parts. -/
inductive Constructor where
  | literal
  | characterSet
  | nonTerminal
  | sequence
  /-- The terms are the elements of one value. -/
  | sequenceOfElements
  | alternatives
  /-- The terms are the elements of one value. -/
  | alternativesOfElements
  | optional
  | repetition
  | epsilon
  deriving DecidableEq, Repr

/-- Ways to make a term from a term. -/
inductive Operator where
  | followedBy
  | orElse
  /-- The exclusions come after the character set. -/
  | excluding
  /-- Only a choice has a preferred one. -/
  | preferred
  deriving DecidableEq, Repr

/-- All ways to make a term. -/
inductive Operation where
  | factory (factory : Factory)
  | constructor (constructor : Constructor)
  | operator (operator : Operator)
  deriving DecidableEq, Repr

/-- Apply a factory to its arguments. -/
def Factory.apply : Factory → List Value → Except Error Term
  | .literal, [text] => Term.makeLiteral text (.bool true)
  | .caseInsensitive, [text] => Term.makeLiteral text (.bool false)
  | .charactersOf, [name] => Term.makeFullCharacterSet name
  | .anyCharacter, [] => .ok (.characterSet anyCharacterName [])
  | .nonTerminal, [name] => Term.makeNonTerminal name
  | .epsilon, [] => .ok .epsilon
  | .sequence, first :: rest => Term.sequenceOf first rest
  | .choice, first :: rest => Term.choiceOf first rest
  | .optional, first :: rest => Term.optionalOf (first :: rest)
  | .zeroOrMore, first :: rest => Term.repetitionOf (.int 0) .null (first :: rest)
  | .oneOrMore, first :: rest => Term.repetitionOf (.int 1) .null (first :: rest)
  | .atLeast, min :: first :: rest => Term.repetitionOf min .null (first :: rest)
  | .between, min :: max :: first :: rest => Term.repetitionOf min max (first :: rest)
  | .exactly, count :: first :: rest => Term.repetitionOf count count (first :: rest)
  | _, _ => .error .misapplied

/-- Apply a constructor to its arguments. -/
def Constructor.apply : Constructor → List Value → Except Error Term
  | .literal, [text] => Term.makeLiteral text (.bool true)
  | .literal, [text, flag] => Term.makeLiteral text flag
  | .characterSet, [name] => Term.makeFullCharacterSet name
  | .characterSet, [name, excluded] => Term.makeCharacterSet name excluded
  | .nonTerminal, [name] => Term.makeNonTerminal name
  | .sequence, terms => Term.makeSequence terms
  | .sequenceOfElements, [value] => do Term.makeSequence (← value.elements)
  | .alternatives, terms => Term.makeAlternatives terms
  | .alternativesOfElements, [value] => do Term.makeAlternatives (← value.elements)
  | .optional, [body] => Term.makeOptional body
  | .repetition, [body] => Term.makeRepetition body (.int 0) .null
  | .repetition, [body, min] => Term.makeRepetition body min .null
  | .repetition, [body, min, max] => Term.makeRepetition body min max
  | .epsilon, [] => .ok .epsilon
  | _, _ => .error .misapplied

/-- Apply an operator to its arguments, the first of which is a term. -/
def Operator.apply : Operator → List Value → Except Error Term
  | .followedBy, [.term t, v] => Term.sequenceOf (.term t) [v]
  | .orElse, [.term t, v] => Term.choiceOf (.term t) [v]
  | .excluding, .term t :: values => t.excluding values
  | .preferred, [.term (.alternatives first _)] => .ok first
  | _, _ => .error .misapplied

/-- Apply an operation to its arguments. -/
def Operation.apply : Operation → List Value → Except Error Term
  | .factory f => f.apply
  | .constructor c => c.apply
  | .operator o => o.apply

end FormalGrammar

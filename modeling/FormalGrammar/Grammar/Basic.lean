import FormalGrammar.Error
import FormalGrammar.Grammar.Production
import FormalGrammar.Term.CodePoint

/-!
# Grammars

A grammar is a language, a header and productions in order, the first of which
is the root. Grammars come out of the resolution of a builder and never change.
-/

namespace FormalGrammar

/-- A resolved grammar. -/
structure Grammar where
  language : String
  /-- Anything that the author wants to go with the grammar. -/
  header : Value
  productions : List Production

namespace Grammar

/-- The names of the productions in order. -/
def names (g : Grammar) : List String := g.productions.map (·.name)

/-- The name of the root, which is the first production. -/
def root? (g : Grammar) : Option String := g.names.head?

/-- The production of a name. -/
def find? (g : Grammar) (name : String) : Option Production :=
  g.productions.find? (·.name == name)

/-- Whether there is a production of a name. A value other than a text names none, but it has to
be one that could be a member of a set. -/
def has (g : Grammar) (name : Value) : Except Error Bool := do
  checkHashable [name]
  match name with
  | .text s => return (g.find? s).isSome
  | _ => return false

/-- Look up the production of a name. -/
def production (g : Grammar) (name : Value) : Except Error Production := do
  checkHashable [name]
  match name with
  | .text s =>
    match g.find? s with
    | some p => return p
    | none => .error (.unknownProduction name)
  | _ => .error (.unknownProduction name)

/-- Apply a function to the production of a name. -/
def transform {α : Type} (g : Grammar) (name : Value) (f : Production → α) : Except Error α := do
  return f (← g.production name)

/-- Show all productions to a visitor, in order. -/
def visit (g : Grammar) (visitor : Visitor) : Visitor.Visit Unit :=
  g.productions.forM (Production.visit visitor)

/-- Whether two grammars have the same language, equal headers and equal productions. -/
def same (g h : Grammar) : Bool :=
  g.language == h.language && g.header.same h.header &&
    Production.sameAll g.productions h.productions

/-- What the hash of a grammar is made of. -/
def hashKey (g : Grammar) : String × List String := (g.language, g.names)

/-- A grammar as messages show it. -/
def display (g : Grammar) : String :=
  "Grammar(" ++ Text.quote g.language ++ ", productions=" ++ quotedList g.names ++ ")"

end Grammar

end FormalGrammar

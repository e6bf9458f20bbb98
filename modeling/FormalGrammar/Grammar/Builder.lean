import FormalGrammar.Grammar.Production
import FormalGrammar.Term.Checked

/-!
# Builders

A builder collects the productions of a language until it is built; from then
on neither its header nor its productions change. A change that is refused
leaves no trace.
-/

namespace FormalGrammar

/-- A grammar under construction. -/
structure Builder where
  language : String
  /-- Anything that the author wants to go with the grammar. -/
  header : Value
  /-- The productions in the order in which they were added. -/
  productions : List Production
  /-- Whether the grammar has been built. -/
  built : Bool

namespace Builder

/-- Start to build a grammar. -/
def start (language header : Value) : Except Error Builder := do
  return ⟨← language.toName .languageName, header, [], false⟩

/-- The names of the productions in order. -/
def names (b : Builder) : List String := b.productions.map (·.name)

/-- The production of a name. -/
def find? (b : Builder) (name : String) : Option Production :=
  b.productions.find? (·.name == name)

/-- Look up the production of a name. -/
def production (b : Builder) (name : Value) : Except Error Production :=
  match name with
  | .text s =>
    match b.find? s with
    | some p => .ok p
    | none => .error (.unknownProduction name)
  | _ => .error (.unknownProduction name)

/-- Change the header, unless the grammar has been built. -/
def setHeader (b : Builder) (header : Value) : Except Error Builder :=
  if b.built then reject (.headerClosed b.language) else .ok { b with header }

/-- Add a production that chooses between the given terms. It is refused after the grammar was
built, for a name that is none, for a name that is taken, and for a value that is no term, in this
order. -/
def add (b : Builder) (name first : Value) (rest : List Value) (location : String) :
    Except Error Builder :=
  if b.built then reject (.productionsClosed name b.language)
  else do
    let name ← name.toName .productionName
    match b.find? name with
    | some existing => reject (.duplicate name existing.location location)
    | none => do
      let definition ← Term.choiceOf first rest
      return { b with productions := b.productions ++ [⟨name, definition, location⟩] }

end Builder

end FormalGrammar

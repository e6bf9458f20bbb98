import FormalGrammar.Setting

/-!
# Errors

Every way in which a term, a builder, a resolution or a look-up can fail, by
cause. The wording of all of them is in `Error.message` and the functions it
calls. A construction error is found by the call that caused it; a resolution
error means that there is no grammar at all.
-/

namespace FormalGrammar

/-- Ways in which a term or a production can be put together wrong. -/
inductive ConstructionError where
  | notATerm (value : Value)
  | literalNotText (value : Value)
  | literalEmpty
  | setName (value : Value)
  /-- One value or more that are no code points among what is excluded. They are members of a set,
  which has no first one, so that the complaint is about any of them. -/
  | notACodePoint (value : Value) (others : List Value)
  | productionName (value : Value)
  | languageName (value : Value)
  | emptySequence
  | emptyAlternatives
  | minimum (value : Value)
  | maximum (value : Value)
  | maximumBelowMinimum (most : Int) (least : Nat)
  | alreadyDefined
  | notDefined
  /-- A change of the header after the grammar was built. -/
  | headerClosed (language : String)
  /-- A new production after the grammar was built. -/
  | productionsClosed (name : Value) (language : String)
  /-- A second production of a name, with the locations of both. -/
  | duplicate (name existing repeated : String)
  | other (text : String)

/-- Ways in which the productions of a builder can fail to make a grammar. -/
inductive ResolutionError where
  /-- Pairs of a production and a name it refers to that has none. -/
  | undefined (missing : List (String × String))
  /-- Productions that no root reaches. -/
  | unused (names : List String)
  /-- There are no productions. -/
  | rootless (language : String)
  | other (text : String)
  deriving DecidableEq, Repr

/-- The names that are missing, each once, in the order of their code points. -/
def missingNames (missing : List (String × String)) : List String :=
  (missing.map (·.2)).eraseDups.mergeSort

/-- Whether a field was to be given a value or to be removed. -/
inductive FieldChange where
  | assign
  | delete
  deriving DecidableEq, Repr

/-- All failures of the library. -/
inductive Error where
  | construction (cause : ConstructionError)
  | resolution (cause : ResolutionError)
  | unknownProduction (name : Value)
  /-- A setting that is no parser option where only those are admitted. -/
  | unknownOption (setting : Setting)
  /-- A value that holds no elements to go through. -/
  | notIterable (value : Value)
  /-- A list or a record where a key or a member of a set is needed. -/
  | unhashable (value : Value)
  /-- A value that no term can be attached to. -/
  | notATarget (value : Value)
  /-- A change of a field of a term or a grammar, which never change. -/
  | fixedField (change : FieldChange) (field : String)
  /-- A change of the language of a builder. -/
  | fixedLanguage
  /-- Arguments outside the form of an operation. -/
  | misapplied
  | other (text : String)

/-- Fail with a construction error. -/
abbrev reject {α : Type} (cause : ConstructionError) : Except Error α :=
  .error (.construction cause)

/-- The wording of a construction error. Where it may be about one of several values, it is worded
for the one that was given first. -/
def ConstructionError.message : ConstructionError → String
  | .notATerm v => "Expected a term, got " ++ v.display
  | .literalNotText v => "Literal value must be a string, got " ++ v.display
  | .literalEmpty => "Literal value must not be empty"
  | .setName v => "Character set name must be a non-empty string, got " ++ v.display
  | .notACodePoint v _ => v.display ++ " is not a code point"
  | .productionName v => "Production name must be a non-empty string, got " ++ v.display
  | .languageName v => "Language name must be a non-empty string, got " ++ v.display
  | .emptySequence => "A sequence needs at least one term"
  | .emptyAlternatives => "A set of alternatives needs at least one term"
  | .minimum v => "Minimum repetition must be a non-negative integer, got " ++ v.display
  | .maximum v => "Maximum repetition must be an integer, got " ++ v.display
  | .maximumBelowMinimum most least =>
    "Maximum repetition (" ++ toString most ++ ") is less than the minimum (" ++ toString least
      ++ ")"
  | .alreadyDefined => "The production already has a definition"
  | .notDefined => "The production has no definition"
  | .headerClosed language =>
    "Cannot change the header of " ++ language ++ ": the grammar has been built"
  | .productionsClosed name language =>
    "Cannot add production " ++ name.plain ++ " to " ++ language ++ ": the grammar has been built"
  | .duplicate name existing repeated =>
    "Found more than one production named " ++ name ++ ":\n- " ++ existing ++ "\n- " ++ repeated
  | .other text => text

/-- The wording of a resolution error. -/
def ResolutionError.message : ResolutionError → String
  | .undefined missing =>
    toString missing.length ++ " undefined production reference(s):\n" ++ "\n".intercalate
      (missing.map fun (production, name) =>
        "- " ++ production ++ " refers to undefined production " ++ name)
  | .unused names =>
    toString names.length ++ " unused production(s): " ++ commaSeparated names
  | .rootless language =>
    "The grammar for " ++ language ++ " has no productions, so it has no root"
  | .other text => text

/-- A text cut down to its first hundred characters, with dots if anything is cut off. -/
def abbreviated (s : String) : String :=
  if s.length > 100 then String.ofList (s.toList.take 100) ++ "..." else s

/-- The wording of an error. -/
def Error.message : Error → String
  | .construction cause => cause.message
  | .resolution cause => cause.message
  | .unknownProduction name => "No production named " ++ name.plain
  | .unknownOption setting => "Unknown parser option " ++ setting.display
  | .notIterable v => Text.quote v.typeName ++ " object is not iterable"
  | .unhashable v => "unhashable type: " ++ Text.quote v.typeName
  | .notATarget v => "Expected code to be unreachable, but got: " ++ abbreviated v.display
  | .fixedField .assign field => "cannot assign to field " ++ Text.quote field
  | .fixedField .delete field => "cannot delete field " ++ Text.quote field
  | .fixedLanguage => "property 'language' of 'GrammarBuilder' object has no setter"
  | .misapplied => "The operation does not apply to these arguments"
  | .other text => text

end FormalGrammar

import FormalGrammar.Grammar.Rule

/-!
# Documents

A document names a language and lists rules. Reading it makes the same calls to
a builder that one would make by hand. A strict reader refuses a rule with an
attribute that has no meaning before it looks at the rule itself.
-/

namespace FormalGrammar

/-- One rule of a document. -/
structure Entry where
  name : Value
  terms : List Expression
  /-- The names of all attributes that were written. -/
  attributes : List String

/-- A document. -/
structure Document where
  language : Value
  entries : List Entry

/-- Ways in which a document can fail to be read. -/
inductive DocumentError where
  /-- There is nothing to read. -/
  | noDocument
  | unknownAttribute (name : String)
  /-- What the document asks for cannot be built. -/
  | building (error : Error)

/-- The wording of an error in a document. -/
def DocumentError.message : DocumentError → String
  | .noDocument => "no document"
  | .unknownAttribute name => "unknown attribute " ++ name
  | .building error => error.message

namespace Entry

/-- The attributes that have a meaning. -/
def knownAttributes : List String := ["name", "terms"]

/-- The attributes that have no meaning. -/
def unknownAttributes (entry : Entry) : List String :=
  entry.attributes.filter fun a => !knownAttributes.contains a

/-- The rule that an entry of a number writes. -/
def rule (entry : Entry) (number : Nat) : Rule :=
  ⟨entry.name, entry.terms, "document:" ++ toString number⟩

end Entry

namespace Document

/-- The smaller of two names. -/
def smaller (a b : String) : String := if b < a then b else a

/-- Add one entry to a builder. -/
def addEntry (mode : ReaderMode) (number : Nat) (b : Builder) (entry : Entry) :
    Except DocumentError Builder :=
  match mode.failOnUnknownAttribute, entry.unknownAttributes with
  | true, name :: names => .error (.unknownAttribute (names.foldl smaller name))
  | _, _ => (b.addRule (entry.rule number)).mapError .building

/-- Add entries to a builder, counting from a number. -/
def addEntries (mode : ReaderMode) (number : Nat) (b : Builder) :
    List Entry → Except DocumentError Builder
  | [] => .ok b
  | entry :: entries => do
    let b ← addEntry mode number b entry
    addEntries mode (number + 1) b entries

/-- Read a document, if there is one. -/
def read (source : Option Document) (mode : ReaderMode) : Except DocumentError Builder :=
  match source with
  | none => .error .noDocument
  | some document => do
    let b ← (Builder.start document.language (.text "")).mapError .building
    addEntries mode 1 b document.entries

end Document

end FormalGrammar

import FormalGrammar.Term.Basic
import FormalGrammar.Text.Quoted

/-!
# Values and terms as messages show them

A message shows the value it complains about: text in quotation marks, lists
and records in brackets, and a term as the name of its kind with all its fields.
-/

namespace FormalGrammar

/-- The kind of a term as it is named where the term is shown. -/
def Kind.title : Kind → String
  | .literal => "Literal"
  | .characterSet => "CharacterSet"
  | .nonTerminal => "NonTerminal"
  | .sequence => "Sequence"
  | .alternatives => "Alternatives"
  | .optional => "Optional"
  | .repetition => "Repetition"
  | .epsilon => "Epsilon"

/-- The kind of a term as it is named where terms are walked through. -/
def Kind.label : Kind → String
  | .literal => "literal"
  | .characterSet => "character_set"
  | .nonTerminal => "non_terminal"
  | .sequence => "sequence"
  | .alternatives => "alternatives"
  | .optional => "optional"
  | .repetition => "repetition"
  | .epsilon => "epsilon"

/-- Texts with a comma and a space between them. -/
def commaSeparated (texts : List String) : String := ", ".intercalate texts

/-- A list of quoted texts in brackets. -/
def quotedList (texts : List String) : String :=
  "[" ++ commaSeparated (texts.map Text.quote) ++ "]"

/-- Texts in parentheses, with a comma behind a single one. -/
def parenthesized : List String → String
  | [s] => "(" ++ s ++ ",)"
  | texts => "(" ++ commaSeparated texts ++ ")"

/-- A set of excluded code points. -/
def displayExcluded : List Nat → String
  | [] => "frozenset()"
  | excluded => "frozenset(\x7b" ++ commaSeparated (excluded.map toString) ++ "\x7d)"

/-- An upper bound, if there is one. -/
def displayBound : Option Nat → String
  | none => "None"
  | some n => toString n

mutual

/-- A value as messages show it. -/
def Value.display : Value → String
  | .null => "None"
  | .bool b => if b then "True" else "False"
  | .int n => toString n
  | .decimal x => x.text
  | .text s => Text.quote s
  | .list vs => "[" ++ commaSeparated (Value.displayAll vs) ++ "]"
  | .record fs => "\x7b" ++ commaSeparated (Value.displayFields fs) ++ "\x7d"
  | .term t => t.display
termination_by structural v => v

/-- The values of a list as messages show them. -/
def Value.displayAll : List Value → List String
  | [] => []
  | v :: vs => v.display :: Value.displayAll vs
termination_by structural vs => vs

/-- The fields of a record as messages show them. -/
def Value.displayFields : List (String × Value) → List String
  | [] => []
  | (k, v) :: fs => (Text.quote k ++ ": " ++ v.display) :: Value.displayFields fs
termination_by structural fs => fs

/-- A term as messages show it. -/
def Term.display : Term → String
  | .literal s f =>
    "Literal(value=" ++ Text.quote s ++ ", case_sensitive=" ++ f.display ++ ")"
  | .characterSet n e =>
    "CharacterSet(set_name=" ++ Text.quote n ++ ", excluded=" ++ displayExcluded e ++ ")"
  | .nonTerminal n => "NonTerminal(name=" ++ Text.quote n ++ ")"
  | .sequence t ts =>
    "Sequence(terms=" ++ parenthesized (t.display :: Term.displayAll ts) ++ ")"
  | .alternatives t ts =>
    "Alternatives(terms=" ++ parenthesized (t.display :: Term.displayAll ts) ++ ")"
  | .optional t => "Optional(term=" ++ t.display ++ ")"
  | .repetition t min max =>
    "Repetition(term=" ++ t.display ++ ", min=" ++ toString min ++ ", max=" ++ displayBound max
      ++ ")"
  | .epsilon => "Epsilon()"
termination_by structural t => t

/-- The terms of a list as messages show them. -/
def Term.displayAll : List Term → List String
  | [] => []
  | t :: ts => t.display :: Term.displayAll ts
termination_by structural ts => ts

end

/-- A value inside running text: text as it is, all else as it is shown. -/
def Value.plain : Value → String
  | .text s => s
  | v => v.display

/-- The type of a value as messages name it; a term is named by its kind. -/
def Value.typeName : Value → String
  | .null => "NoneType"
  | .bool _ => "bool"
  | .int _ => "int"
  | .decimal _ => "float"
  | .text _ => "str"
  | .list _ => "list"
  | .record _ => "dict"
  | .term t => t.kind.title

end FormalGrammar

import FormalGrammar.Term.Formatter

/-!
# EBNF

The text of a term in EBNF. A choice is put in parentheses where it stands in a
sequence. What is written for a reference is left to the caller and may fail; a
plain text writes the name. What kind of text it is, and how it holds excluded
code points, is a matter of style.
-/

namespace FormalGrammar

/-- Whether a flag counts as on: everything does but null, zero and what is empty. -/
def Value.holds : Value → Bool
  | .null => false
  | .bool b => b
  | .int n => n != 0
  | .decimal x => x.digits != 0
  | .text s => s != ""
  | .list vs => !vs.isEmpty
  | .record fs => !fs.isEmpty
  | .term _ => true

/-- A style of EBNF: a kind of text and what exclusions are in it. -/
structure EbnfStyle (τ : Type) where
  /-- What all styles have in common. -/
  text : String → τ
  /-- Texts one after the other. -/
  join : List τ → τ
  /-- Ascending code points that are excluded. -/
  excluded : List Nat → τ

namespace EbnfStyle

/-- Exclusions as the characters that they are, one after the other. A text is here the list of its
code points, since an exclusion can be a surrogate, and those are no characters of a `String`. -/
def characters : EbnfStyle (List Nat) where
  text s := s.toList.map Char.toNat
  join := List.flatten
  excluded := id

/-- Exclusions as numbers with commas between them. -/
def numbers : EbnfStyle String where
  text := id
  join := String.join
  excluded points := ",".intercalate (points.map toString)

/-- Texts with something between them. -/
def separated {τ : Type} (style : EbnfStyle τ) (separator : String) (texts : List τ) : τ :=
  style.join (texts.intersperse (style.text separator))

/-- A text between two marks. -/
def between {τ : Type} (style : EbnfStyle τ) (left : String) (text : τ) (right : String) : τ :=
  style.join [style.text left, text, style.text right]

end EbnfStyle

namespace Term

variable {τ : Type}

/-- A character set, and its exclusions if there are any. -/
def ebnfCharacterSet (style : EbnfStyle τ) (name : String) : List Nat → τ
  | [] => style.text name
  | excluded => style.between (name ++ " - [") (style.excluded excluded) "]"

/-- The bounds of a repetition, if they exclude any count. -/
def ebnfBounds (min : Nat) : Option Nat → String
  | none => if min = 0 then "" else toString min ++ ".."
  | some max => toString min ++ ".." ++ toString max

/-- Choices with bars between them, in parentheses if they stand in a sequence. -/
def ebnfChoices (style : EbnfStyle τ) (grouped : Bool) (texts : List τ) : τ :=
  let choices := style.separated " | " texts
  if grouped then style.between "(" choices ")" else choices

/-- EBNF as a way to format terms. The parameter says whether a term stands in a sequence. -/
def ebnfFormatter (style : EbnfStyle τ) : Formatter Bool τ where
  inside kind _ := kind = .sequence
  write grouped
    | .literal s flag, _ => style.text ("\"" ++ s ++ "\"" ++ if flag.holds then "" else "i")
    | .characterSet name excluded, _ => ebnfCharacterSet style name excluded
    | .nonTerminal name, _ => style.text name
    | .sequence _, texts => style.separated " " texts
    | .alternatives _, texts => ebnfChoices style grouped texts
    | .optional, texts => style.between "[" (style.join texts) "]"
    | .repetition min max, texts =>
      style.between "\x7b" (style.join texts) ("\x7d" ++ ebnfBounds min max)
    | .epsilon, _ => style.text "()"

/-- The text of a term, where `atName` writes the references. The flag says whether the term
stands in a sequence. -/
def ebnfWith {m : Type → Type} [Monad m] (style : EbnfStyle τ) (atName : String → m τ)
    (grouped : Bool) (t : Term) : m τ :=
  t.formatWith (ebnfFormatter style) (fun _ => atName) grouped

/-- The text of a term with the names of its references. -/
def ebnf (style : EbnfStyle τ) (grouped : Bool) (t : Term) : τ :=
  Id.run (t.ebnfWith style (fun name => pure (style.text name)) grouped)

end Term

end FormalGrammar

import FormalGrammar.Setting
import FormalGrammar.Text.Blank
import FormalGrammar.Text.Lower

/-!
# Options as properties

A bag of named properties turns on the parser options that it names. A property
is on if it is the truth value or the word for it in letters of either case,
with blanks around it; anything else is off, and names of no option are passed
over.
-/

namespace FormalGrammar

/-- The word for the truth value. -/
def trueWord : List Char := ['t', 'r', 'u', 'e']

/-- Whether a text is the word for the truth value, apart from case and blanks around it. There is
no sigma in the word, so it does not matter where words end. -/
def isTrueWord (s : String) : Bool :=
  Text.lower (fun _ _ => false) (Text.trim s.toList) == trueWord

/-- Whether the value of a property turns it on. -/
def Value.turnsOn : Value → Bool
  | .bool b => b
  | .text s => isTrueWord s
  | .null | .int _ | .decimal _ | .list _ | .record _ | .term _ => false

/-- The parser options that properties turn on, in the order of their names. -/
def ParserOption.ofProperties (properties : List (String × Value)) : List ParserOption :=
  ParserOption.all.filter fun o => (properties.lookup o.name).any Value.turnsOn

/-- An option is turned on exactly by a property of its own name. -/
theorem ParserOption.mem_ofProperties {properties : List (String × Value)} {o : ParserOption} :
    o ∈ ParserOption.ofProperties properties ↔
      ∃ v, properties.lookup o.name = some v ∧ v.turnsOn = true := by
  simp [ParserOption.ofProperties, ParserOption.mem_all, Option.any_eq_true]

end FormalGrammar

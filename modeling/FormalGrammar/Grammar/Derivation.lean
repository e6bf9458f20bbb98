import FormalGrammar.Grammar.Production
import FormalGrammar.Term.Language

/-!
# Derivations

What words a production derives, where every reference stands for whatever the
production of that name derives. A derivation is finite: it replaces names by
their definitions at most so many levels deep.
-/

namespace FormalGrammar

/-- What literals and character sets describe; references are left to the productions. -/
structure Lexicon (α : Type) where
  literal : String → Value → Language α
  characterSet : String → List Nat → Language α

namespace Production

variable {α : Type}

/-- The words that a name derives by replacing names at most so many levels deep. -/
def DerivesWithin (lexicon : Lexicon α) (productions : List Production) :
    Nat → String → Language α
  | 0, _ => fun _ => False
  | depth + 1, name => fun w =>
    ∃ p ∈ productions, p.name = name ∧
      p.definition.Denotes
        ⟨lexicon.literal, lexicon.characterSet, DerivesWithin lexicon productions depth⟩ w

/-- The words that a name derives. -/
def Derives (lexicon : Lexicon α) (productions : List Production) (name : String) : Language α :=
  fun w => ∃ depth, DerivesWithin lexicon productions depth name w

end Production

end FormalGrammar

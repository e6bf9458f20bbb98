import FormalGrammar.Term.Basic

/-!
# The language of a term

What words a term describes, once it is said what its literals, character sets
and references describe. A sequence describes concatenations, a choice the union,
an optional term the empty word besides, and a repetition the powers that its
bounds allow.
-/

namespace FormalGrammar

/-- A set of words over an alphabet. -/
abbrev Language (α : Type) := List α → Prop

namespace Language

variable {α : Type}

/-- The words of one language followed by words of another. -/
def product (L M : Language α) : Language α := fun w => ∃ u v, w = u ++ v ∧ L u ∧ M v

/-- The words of a language, so many times over. -/
def power (L : Language α) : Nat → Language α
  | 0 => fun w => w = []
  | n + 1 => L.product (L.power n)

end Language

/-- What the leaves of terms describe. -/
structure Interpretation (α : Type) where
  literal : String → Value → Language α
  characterSet : String → List Nat → Language α
  nonTerminal : String → Language α

namespace Term

variable {α : Type}

/-- Whether a repetition allows a count. -/
def Allows (min : Nat) (max : Option Nat) (n : Nat) : Prop := min ≤ n ∧ ∀ most ∈ max, n ≤ most

mutual

/-- The words that a term describes. -/
def Denotes (I : Interpretation α) : Term → Language α
  | .literal s flag => I.literal s flag
  | .characterSet name excluded => I.characterSet name excluded
  | .nonTerminal name => I.nonTerminal name
  | .sequence t ts => (t.Denotes I).product (DenotesInOrder I ts)
  | .alternatives t ts => fun w => t.Denotes I w ∨ DenotesSome I ts w
  | .optional t => fun w => w = [] ∨ t.Denotes I w
  | .repetition t min max => fun w => ∃ n, Allows min max n ∧ (t.Denotes I).power n w
  | .epsilon => fun w => w = []
termination_by structural t => t

/-- The words that the terms of a list describe one after the other. -/
def DenotesInOrder (I : Interpretation α) : List Term → Language α
  | [] => fun w => w = []
  | t :: ts => (t.Denotes I).product (DenotesInOrder I ts)
termination_by structural ts => ts

/-- The words that some term of a list describes. -/
def DenotesSome (I : Interpretation α) : List Term → Language α
  | [] => fun _ => False
  | t :: ts => fun w => t.Denotes I w ∨ DenotesSome I ts w
termination_by structural ts => ts

end

/-- Some term of a list describes a word exactly if one of them does. -/
theorem denotesSome_iff {I : Interpretation α} {ts : List Term} {w : List α} :
    DenotesSome I ts w ↔ ∃ t ∈ ts, t.Denotes I w := by
  induction ts with
  | nil => simp [DenotesSome]
  | cons t ts ih => simp [DenotesSome, ih]

/-- Two lists of terms one after the other describe the products of their words. -/
theorem denotesInOrder_append {I : Interpretation α} {ts us : List Term} {w : List α} :
    DenotesInOrder I (ts ++ us) w ↔ (DenotesInOrder I ts).product (DenotesInOrder I us) w := by
  induction ts generalizing w with
  | nil =>
    constructor
    · intro h
      exact ⟨[], w, rfl, rfl, h⟩
    · rintro ⟨u, v, rfl, rfl, h⟩
      exact h
  | cons t ts ih =>
    constructor
    · rintro ⟨u, v, rfl, hu, hv⟩
      obtain ⟨x, y, rfl, hx, hy⟩ := ih.1 hv
      exact ⟨u ++ x, y, (List.append_assoc ..).symm, ⟨u, x, rfl, hu, hx⟩, hy⟩
    · rintro ⟨_, y, rfl, ⟨u, x, rfl, hu, hx⟩, hy⟩
      exact ⟨u, x ++ y, List.append_assoc .., hu, ih.2 ⟨x, y, rfl, hx, hy⟩⟩

end Term

end FormalGrammar

import FormalGrammar.Term.CodePoint
import FormalGrammar.Term.Flatten

/-!
# Checked construction

Terms made from arbitrary values. Each construction checks its arguments in a
fixed order and fails with the first that does not fit: the terms from left to
right, then the least count, then the greatest. The plain constructions take
their terms as they come; the others splice them into one term.
-/

namespace FormalGrammar

namespace Value

/-- Check that a value is a term. -/
def toTerm : Value → Except Error Term
  | .term t => .ok t
  | v => reject (.notATerm v)

/-- Check that all values are terms; the leftmost one that is not is reported. -/
def toTerms : List Value → Except Error (List Term)
  | [] => .ok []
  | v :: vs => do
    let t ← v.toTerm
    let ts ← toTerms vs
    return t :: ts

/-- Check that a value is a text that is not empty, with the error that says what it was for. -/
def toName (complaint : Value → ConstructionError) : Value → Except Error String
  | .text s => if s = "" then reject (complaint (.text s)) else .ok s
  | v => reject (complaint v)

/-- Check that a value is a count. Truth values and decimals are not. -/
def toMinimum : Value → Except Error Nat
  | .int (.ofNat n) => .ok n
  | v => reject (.minimum v)

/-- Check that a value bounds a count that is at least `least`; the null value is no bound. -/
def toMaximum (least : Nat) : Value → Except Error (Option Nat)
  | .null => .ok none
  | .int n => if n < least then reject (.maximumBelowMinimum n least) else .ok (some n.toNat)
  | v => reject (.maximum v)

/-- The elements that a value consists of: the terms of a sequence or a choice, the values of a
list, the characters of a text or the names of the fields of a record. -/
def elements : Value → Except Error (List Value)
  | .list vs => .ok vs
  | .text s => .ok (s.toList.map fun c => .text c.toString)
  | .record fs => .ok (fs.map fun (name, _) => .text name)
  | .term (.sequence t ts) | .term (.alternatives t ts) => .ok ((t :: ts).map .term)
  | v => .error (.notIterable v)

end Value

namespace Term

/-! ## Plain constructions -/

/-- A literal of a text that is not empty, with any flag. -/
def makeLiteral (text flag : Value) : Except Error Term :=
  match text with
  | .text s => if s = "" then reject .literalEmpty else .ok (.literal s flag)
  | v => reject (.literalNotText v)

/-- A reference to a production. -/
def makeNonTerminal (name : Value) : Except Error Term := do
  return .nonTerminal (← name.toName .productionName)

/-- A character set with the elements of a value as exclusions. The name is checked first. -/
def makeCharacterSet (name excluded : Value) : Except Error Term := do
  let name ← name.toName .setName
  return .characterSet name (← mergeExcluded [] (← excluded.elements))

/-- A character set without exclusions. -/
def makeFullCharacterSet (name : Value) : Except Error Term := do
  return .characterSet (← name.toName .setName) []

/-- A sequence of the given terms as they are. -/
def makeSequence : List Value → Except Error Term
  | [] => reject .emptySequence
  | v :: vs => do
    let t ← v.toTerm
    let ts ← Value.toTerms vs
    return .sequence t ts

/-- A choice between the given terms as they are. -/
def makeAlternatives : List Value → Except Error Term
  | [] => reject .emptyAlternatives
  | v :: vs => do
    let t ← v.toTerm
    let ts ← Value.toTerms vs
    return .alternatives t ts

/-- A term or nothing. -/
def makeOptional (body : Value) : Except Error Term := do
  return .optional (← body.toTerm)

/-- A term that is already known to be one, repeated within bounds. -/
def repeatWithin (body : Term) (min max : Value) : Except Error Term := do
  let least ← min.toMinimum
  let most ← max.toMaximum least
  return .repetition body least most

/-- A term repeated within bounds. -/
def makeRepetition (body min max : Value) : Except Error Term := do
  repeatWithin (← body.toTerm) min max

/-! ## Spliced constructions -/

/-- The given terms in order; a single term is left as it is. -/
def sequenceOf (first : Value) (rest : List Value) : Except Error Term := do
  let t ← first.toTerm
  let ts ← Value.toTerms rest
  return t.followedBy ts

/-- A choice between the given terms; a single term is left as it is. -/
def choiceOf (first : Value) (rest : List Value) : Except Error Term := do
  let t ← first.toTerm
  let ts ← Value.toTerms rest
  return t.orElse ts

/-- The given terms in order, or nothing. -/
def optionalOf (terms : List Value) : Except Error Term := do
  return .optional (concat (← Value.toTerms terms))

/-- The given terms in order, repeated within bounds. -/
def repetitionOf (min max : Value) (terms : List Value) : Except Error Term := do
  repeatWithin (concat (← Value.toTerms terms)) min max

/-- A character set with further exclusions. No other term has exclusions. -/
def excluding (values : List Value) : Term → Except Error Term
  | .characterSet name old => do return .characterSet name (← mergeExcluded old values)
  | _ => .error .misapplied

end Term

namespace Value

/-- Terms pass the check for terms. -/
@[simp]
theorem toTerms_map_term (ts : List Term) : toTerms (ts.map .term) = .ok ts := by
  induction ts with
  | nil => rfl
  | cons t ts ih =>
    simp only [List.map_cons, toTerms, toTerm, ih]
    rfl

/-- What passes the check for terms is terms. -/
theorem eq_map_term_of_toTerms {vs : List Value} {ts : List Term} (h : toTerms vs = .ok ts) :
    vs = ts.map .term := by
  induction vs generalizing ts with
  | nil =>
    cases h
    rfl
  | cons v vs ih =>
    cases v with
    | term t =>
      cases hs : toTerms vs with
      | error e => simp [toTerms, toTerm, hs, bind, Except.bind] at h
      | ok us =>
        simp only [toTerms, toTerm, hs, bind, Except.bind, pure, Except.pure, Except.ok.injEq] at h
        subst h
        rw [ih hs, List.map_cons]
    | _ => simp [toTerms, toTerm, bind, Except.bind] at h

/-- The check for terms passes exactly terms. -/
theorem toTerms_eq_ok_iff {vs : List Value} {ts : List Term} :
    toTerms vs = .ok ts ↔ vs = ts.map .term :=
  ⟨eq_map_term_of_toTerms, fun h => h ▸ toTerms_map_term ts⟩

end Value

end FormalGrammar

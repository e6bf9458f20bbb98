import FormalGrammar.Term.Same
import FormalGrammar.Error

/-!
# Excluded code points

The exclusions of a character set are a set of values under equality, where the
first of several equal values stays. Only then is every value that stayed
checked to be a code point: an integer, no truth value, from 0 to U+10FFFF. A
truth value or a decimal that equals an earlier integer is therefore harmless.
The order of the values matters for nothing else: which of several values that
are no code points is complained about, is left open.
-/

namespace FormalGrammar

/-- One past the largest code point. -/
def codePointLimit : Nat := 0x110000

/-- The code point that a value is, if it is one. -/
def Value.codePoint? : Value → Option Nat
  | .int (.ofNat n) => if n < codePointLimit then some n else none
  | _ => none

mutual

/-- The first part of a value that cannot be a member of a set: a list or a record. -/
def Value.unhashable? : Value → Option Value
  | .list vs => some (.list vs)
  | .record fs => some (.record fs)
  | .term t => t.unhashable?
  | .null | .bool _ | .int _ | .decimal _ | .text _ => none
termination_by structural v => v

/-- The first part of a term that cannot be a member of a set, which is a flag of a literal. -/
def Term.unhashable? : Term → Option Value
  | .literal _ flag => flag.unhashable?
  | .sequence t ts | .alternatives t ts => t.unhashable?.or (Term.firstUnhashable? ts)
  | .optional t | .repetition t _ _ => t.unhashable?
  | .characterSet .. | .nonTerminal _ | .epsilon => none
termination_by structural t => t

/-- The first part of any term of a list that cannot be a member of a set. -/
def Term.firstUnhashable? : List Term → Option Value
  | [] => none
  | t :: ts => t.unhashable?.or (Term.firstUnhashable? ts)
termination_by structural ts => ts

end

/-- Refuse values that cannot be members of a set. -/
def checkHashable (values : List Value) : Except Error Unit :=
  match values.findSome? Value.unhashable? with
  | some v => .error (.unhashable v)
  | none => .ok ()

/-- Put a number into an ascending list, unless it is there. -/
def insertAscending (n : Nat) : List Nat → List Nat
  | [] => [n]
  | m :: ms =>
    if n < m then n :: m :: ms
    else if n = m then m :: ms
    else m :: insertAscending n ms

/-- The numbers of a list, ascending and without repetition. -/
def ascending (ns : List Nat) : List Nat := ns.foldr insertAscending []

/-- Check that the members of a set are code points. The error holds all those that are none. -/
def Value.toCodePoints (members : List Value) : Except Error (List Nat) :=
  match members.filter (·.codePoint?.isNone) with
  | [] => .ok (members.filterMap Value.codePoint?)
  | v :: others => reject (.notACodePoint v others)

/-- The exclusions made of those already there and of further values, in this order. -/
def mergeExcluded (old : List Nat) (values : List Value) : Except Error (List Nat) := do
  checkHashable values
  let points ← Value.toCodePoints (Value.distinct (old.map (fun n => .int n) ++ values))
  return ascending points

/-- Insertion adds exactly the number. -/
theorem mem_insertAscending {k n : Nat} {ms : List Nat} :
    k ∈ insertAscending n ms ↔ k = n ∨ k ∈ ms := by
  induction ms with
  | nil => simp [insertAscending]
  | cons m ms ih =>
    unfold insertAscending
    split
    · simp
    · split
      · rename_i h
        simp [h]
      · simp only [List.mem_cons, ih]
        exact or_left_comm

/-- Putting numbers in order keeps them. -/
theorem mem_ascending {k : Nat} {ns : List Nat} : k ∈ ascending ns ↔ k ∈ ns := by
  induction ns with
  | nil => simp [ascending]
  | cons n ns ih =>
    rw [List.mem_cons, ← ih]
    exact mem_insertAscending

/-- Insertion keeps a list strictly ascending. -/
theorem pairwise_insertAscending {n : Nat} {ms : List Nat} (h : ms.Pairwise (· < ·)) :
    (insertAscending n ms).Pairwise (· < ·) := by
  induction ms with
  | nil => simp [insertAscending]
  | cons m ms ih =>
    unfold insertAscending
    have hm := List.pairwise_cons.1 h
    split
    · rename_i hn
      refine List.pairwise_cons.2 ⟨fun k hk => ?_, h⟩
      rcases List.mem_cons.1 hk with rfl | hk
      · exact hn
      · exact Nat.lt_trans hn (hm.1 k hk)
    · split
      · exact h
      · refine List.pairwise_cons.2 ⟨fun k hk => ?_, ih hm.2⟩
        rcases mem_insertAscending.1 hk with rfl | hk
        · omega
        · exact hm.1 k hk

/-- Numbers put in order ascend strictly. -/
theorem pairwise_ascending (ns : List Nat) : (ascending ns).Pairwise (· < ·) := by
  induction ns with
  | nil => exact .nil
  | cons n ns ih => exact pairwise_insertAscending ih

end FormalGrammar

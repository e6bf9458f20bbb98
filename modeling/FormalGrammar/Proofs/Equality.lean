import FormalGrammar.Grammar.Basic

/-!
# Laws of equality

Values, terms and productions equal themselves; a number does because it
denotes the same rational as itself.
-/

namespace FormalGrammar

/-- Numbers and truth values denote the same rational as themselves. -/
theorem Value.sameNumber_refl {v : Value} {x : Rat} (h : v.number? = some x) :
    v.sameNumber v = true := by
  simp [sameNumber, h]

/-- A number or a truth value is compared by the rational that it denotes. -/
theorem Value.same_of_number {v w : Value} {x : Rat} (h : v.number? = some x) :
    v.same w = v.sameNumber w := by
  cases v with
  | bool | int | decimal => rw [Value.same] <;> simp
  | _ => cases h

mutual

/-- Every value equals itself. -/
theorem Value.same_refl : ∀ v : Value, v.same v = true
  | .null => by rw [Value.same]
  | .bool _ | .int _ | .decimal _ =>
    (Value.same_of_number rfl).trans (Value.sameNumber_refl rfl)
  | .text s => by rw [Value.same, beq_self_eq_true]
  | .list vs => by rw [Value.same, Value.sameAll_refl vs]
  | .record fs => by rw [Value.same, Value.sameFields_refl fs]
  | .term t => by rw [Value.same, Term.same_refl t]

/-- Every list of values equals itself. -/
theorem Value.sameAll_refl : ∀ vs : List Value, Value.sameAll vs vs = true
  | [] => by rw [Value.sameAll]
  | v :: vs => by rw [Value.sameAll, Value.same_refl v, Value.sameAll_refl vs, Bool.and_self]

/-- Every list of fields equals itself. -/
theorem Value.sameFields_refl : ∀ fs : List (String × Value), Value.sameFields fs fs = true
  | [] => by rw [Value.sameFields, List.isEmpty_nil]
  | (name, v) :: fs => by
    have herase : ((name, v) :: fs).eraseP (·.1 == name) = fs :=
      List.eraseP_cons_of_pos (beq_self_eq_true name)
    simp only [Value.sameFields, List.lookup_cons_self, herase]
    rw [Value.same_refl v, Value.sameFields_refl fs, Bool.and_self]

/-- Every term equals itself. -/
theorem Term.same_refl : ∀ t : Term, t.same t = true
  | .literal s flag => by rw [Term.same, beq_self_eq_true, Value.same_refl flag, Bool.and_self]
  | .characterSet name excluded => by
    rw [Term.same, beq_self_eq_true, beq_self_eq_true, Bool.and_self]
  | .nonTerminal name => by rw [Term.same, beq_self_eq_true]
  | .sequence t ts => by rw [Term.same, Term.same_refl t, Term.sameAll_refl ts, Bool.and_self]
  | .alternatives t ts => by
    rw [Term.same, Term.same_refl t, Term.sameAll_refl ts, Bool.and_self]
  | .optional t => by rw [Term.same, Term.same_refl t]
  | .repetition t min max => by
    rw [Term.same, Term.same_refl t, beq_self_eq_true, beq_self_eq_true]
    rfl
  | .epsilon => by rw [Term.same]

/-- Every list of terms equals itself. -/
theorem Term.sameAll_refl : ∀ ts : List Term, Term.sameAll ts ts = true
  | [] => by rw [Term.sameAll]
  | t :: ts => by rw [Term.sameAll, Term.same_refl t, Term.sameAll_refl ts, Bool.and_self]

end

/-- Productions that differ only in where they were written are equal. -/
theorem Production.sameAll_map_location (place : Production → String)
    (productions : List Production) :
    sameAll (productions.map fun p => { p with location := place p }) productions = true := by
  induction productions with
  | nil => rfl
  | cons p ps ih =>
    rw [List.map_cons, sameAll, ih, same, beq_self_eq_true, Term.same_refl]
    rfl

end FormalGrammar

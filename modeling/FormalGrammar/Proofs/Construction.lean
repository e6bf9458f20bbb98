import FormalGrammar.Term.Checked

/-!
# When a construction succeeds

Every checked construction succeeds exactly for arguments of one form, which its
law names, and then makes exactly one term of them. Nothing later has to open a
construction again. What is refused is complained about as it was given.
-/

namespace FormalGrammar

/-- A computation that goes on with the result of another succeeds exactly if both do. -/
theorem bind_eq_ok_iff {α β : Type} {x : Except Error α} {f : α → Except Error β} {b : β} :
    (x >>= f) = .ok b ↔ ∃ a, x = .ok a ∧ f a = .ok b := by
  cases x <;> simp [bind, Except.bind]

/-- A computation that goes on with the result of another fails as the first of them that does. -/
theorem bind_eq_error_iff {α β : Type} {x : Except Error α} {f : α → Except Error β} {e : Error} :
    (x >>= f) = .error e ↔ x = .error e ∨ ∃ a, x = .ok a ∧ f a = .error e := by
  cases x <;> simp [bind, Except.bind]

/-! ## Checks of values -/

/-- Values can be members of a set exactly if no part of any of them stands in the way. -/
theorem checkHashable_eq_ok_iff {values : List Value} :
    checkHashable values = .ok () ↔ ∀ v ∈ values, v.unhashable? = none := by
  unfold checkHashable
  cases h : values.findSome? Value.unhashable? with
  | none => simpa using List.findSome?_eq_none_iff.mp h
  | some v =>
    simp only [reduceCtorEq, false_iff]
    intro hall
    rw [List.findSome?_eq_none_iff.mpr hall] at h
    cases h

/-- Where values cannot be members of a set, some part of them stands in the way. -/
theorem error_of_checkHashable {values : List Value} {e : Error}
    (h : checkHashable values = .error e) : ∃ v, e = .unhashable v := by
  unfold checkHashable at h
  split at h
  · cases h
    exact ⟨_, rfl⟩
  · cases h

namespace Value

/-- Exactly the texts that are not empty are names. -/
theorem toName_eq_ok_iff {complaint : Value → ConstructionError} {v : Value} {s : String} :
    v.toName complaint = .ok s ↔ v = .text s ∧ s ≠ "" := by
  cases v with
  | text t =>
    by_cases ht : t = ""
    · simp only [toName, ht, if_true, reject, reduceCtorEq, Value.text.injEq, false_iff]
      rintro ⟨rfl, hs⟩
      exact hs rfl
    · simp only [toName, ht, if_false, Except.ok.injEq, Value.text.injEq]
      constructor
      · rintro rfl
        exact ⟨rfl, ht⟩
      · exact And.left
  | _ => simp [toName, reject]

/-- What is refused as a name is complained about as it is. -/
theorem error_of_toName {complaint : Value → ConstructionError} {v : Value} {e : Error}
    (h : v.toName complaint = .error e) : e = .construction (complaint v) := by
  cases v with
  | text t =>
    by_cases ht : t = ""
    · simp only [toName, ht, if_true, reject, Except.error.injEq] at h
      rw [ht, h]
    · simp [toName, ht] at h
  | _ =>
    simp only [toName, reject, Except.error.injEq] at h
    exact h.symm

/-- Exactly terms pass the check for a term. -/
theorem toTerm_eq_ok_iff {v : Value} {t : Term} : v.toTerm = .ok t ↔ v = .term t := by
  cases v <;> simp [toTerm, reject]

/-- Exactly what is no term is refused as one, and is complained about. -/
theorem toTerm_eq_error_iff {v : Value} {e : Error} :
    v.toTerm = .error e ↔ (∀ t, v ≠ .term t) ∧ e = .construction (.notATerm v) := by
  cases v <;> simp [toTerm, reject, eq_comm]

/-- Values are refused as terms exactly for the leftmost of them that is none. -/
theorem toTerms_eq_error_iff {vs : List Value} {e : Error} :
    toTerms vs = .error e ↔
      ∃ (before : List Term) (v : Value) (after : List Value),
        vs = before.map .term ++ v :: after ∧ (∀ t, v ≠ .term t) ∧
          e = .construction (.notATerm v) := by
  constructor
  · intro h
    induction vs with
    | nil => cases h
    | cons v vs ih =>
      rcases bind_eq_error_iff.mp h with hv | ⟨t, ht, hrest⟩
      · exact ⟨[], v, vs, rfl, toTerm_eq_error_iff.mp hv⟩
      rcases bind_eq_error_iff.mp hrest with hvs | ⟨ts, _, hmade⟩
      · obtain ⟨before, w, after, rfl, hw⟩ := ih hvs
        obtain rfl := toTerm_eq_ok_iff.mp ht
        exact ⟨t :: before, w, after, rfl, hw⟩
      · cases hmade
  · rintro ⟨before, v, after, rfl, hv, rfl⟩
    induction before with
    | nil => exact bind_eq_error_iff.mpr (Or.inl (toTerm_eq_error_iff.mpr ⟨hv, rfl⟩))
    | cons t before ih =>
      refine bind_eq_error_iff.mpr (Or.inr ⟨t, rfl, ?_⟩)
      exact bind_eq_error_iff.mpr (Or.inl ih)

/-- A term made of a first and further terms is made exactly if all of them are terms. -/
theorem toTerm_then_toTerms_eq_ok_iff {make : Term → List Term → Term} {v : Value}
    {vs : List Value} {t : Term} :
    (do return make (← v.toTerm) (← toTerms vs) : Except Error Term) = .ok t ↔
      ∃ u us, v = .term u ∧ vs = us.map .term ∧ t = make u us := by
  simp only [bind_eq_ok_iff, toTerm_eq_ok_iff, toTerms_eq_ok_iff, pure, Except.pure,
    Except.ok.injEq, eq_comm (b := t)]
  constructor
  · rintro ⟨u, rfl, us, rfl, rfl⟩
    exact ⟨u, us, rfl, rfl, rfl⟩
  · rintro ⟨u, us, rfl, rfl, rfl⟩
    exact ⟨u, rfl, us, rfl, rfl⟩

/-- A term made of a first and further terms fails exactly as the check of all of them does. -/
theorem toTerm_then_toTerms_eq_error_iff {make : Term → List Term → Term} {v : Value}
    {vs : List Value} {e : Error} :
    (do return make (← v.toTerm) (← toTerms vs) : Except Error Term) = .error e ↔
      toTerms (v :: vs) = .error e := by
  simp only [toTerms, bind_eq_error_iff, pure, Except.pure, reduceCtorEq, and_false, exists_false,
    or_false]

/-- Exactly the integers that are not negative are least counts. -/
theorem toMinimum_eq_ok_iff {v : Value} {n : Nat} : v.toMinimum = .ok n ↔ v = .int n := by
  cases v with
  | int m =>
    cases m with
    | ofNat k => simp only [toMinimum, Except.ok.injEq, Value.int.injEq, Int.ofNat_eq_natCast,
        Int.natCast_inj]
    | negSucc k => simp [toMinimum, reject]
  | _ => simp [toMinimum, reject]

/-- The value that a bound is given as; no bound is given as the null value. -/
def ofBound : Option Nat → Value
  | none => .null
  | some n => .int n

/-- Exactly the null value and the integers from the least count on are greatest counts. -/
theorem toMaximum_eq_ok_iff {least : Nat} {v : Value} {most : Option Nat} :
    v.toMaximum least = .ok most ↔ v = ofBound most ∧ ∀ n ∈ most, least ≤ n := by
  cases v with
  | null => cases most <;> simp [toMaximum, ofBound]
  | int m =>
    by_cases hm : m < least
    · simp only [toMaximum, hm, if_true, reject, reduceCtorEq, false_iff]
      rintro ⟨he, hle⟩
      cases most with
      | none => cases he
      | some n =>
        cases he
        exact absurd (hle n rfl) (by omega)
    · simp only [toMaximum, hm, if_false, Except.ok.injEq]
      cases most with
      | none => simp [ofBound]
      | some n =>
        simp only [Option.some.injEq, ofBound, Value.int.injEq, Option.mem_def, forall_eq']
        omega
  | _ => cases most <;> simp [toMaximum, reject, ofBound]

end Value

namespace Term

open Value (ofBound)

variable {t : Term}

/-! ## Plain constructions -/

/-- A literal is made of a text that is not empty, with whatever flag. -/
theorem makeLiteral_eq_ok_iff {text flag : Value} :
    makeLiteral text flag = .ok t ↔ ∃ s, text = .text s ∧ s ≠ "" ∧ t = .literal s flag := by
  cases text with
  | text s =>
    by_cases hs : s = ""
    · simp [makeLiteral, hs, reject]
    · simp [makeLiteral, hs, eq_comm]
  | _ => simp [makeLiteral, reject]

/-- A reference is made of a name. -/
theorem makeNonTerminal_eq_ok_iff {name : Value} :
    makeNonTerminal name = .ok t ↔ ∃ s, name = .text s ∧ s ≠ "" ∧ t = .nonTerminal s := by
  simp only [makeNonTerminal, bind_eq_ok_iff, Value.toName_eq_ok_iff, pure, Except.pure,
    Except.ok.injEq, and_assoc, eq_comm (b := t)]

/-- A character set without exclusions is made of a name. -/
theorem makeFullCharacterSet_eq_ok_iff {name : Value} :
    makeFullCharacterSet name = .ok t ↔ ∃ s, name = .text s ∧ s ≠ "" ∧ t = .characterSet s [] := by
  simp only [makeFullCharacterSet, bind_eq_ok_iff, Value.toName_eq_ok_iff, pure, Except.pure,
    Except.ok.injEq, and_assoc, eq_comm (b := t)]

/-- A character set is made of a name and a value with elements that can be excluded. -/
theorem makeCharacterSet_eq_ok_iff {name excluded : Value} :
    makeCharacterSet name excluded = .ok t ↔
      ∃ s vs points, name = .text s ∧ s ≠ "" ∧ excluded.elements = .ok vs ∧
        mergeExcluded [] vs = .ok points ∧ t = .characterSet s points := by
  simp only [makeCharacterSet, bind_eq_ok_iff, Value.toName_eq_ok_iff, pure, Except.pure,
    Except.ok.injEq, eq_comm (b := t)]
  constructor
  · rintro ⟨s, ⟨hn, hs⟩, vs, hvs, points, hp, rfl⟩
    exact ⟨s, vs, points, hn, hs, hvs, hp, rfl⟩
  · rintro ⟨s, vs, points, hn, hs, hvs, hp, rfl⟩
    exact ⟨s, ⟨hn, hs⟩, vs, hvs, points, hp, rfl⟩

/-- A sequence is made of terms, of which there is one. -/
theorem makeSequence_eq_ok_iff {vs : List Value} :
    makeSequence vs = .ok t ↔ ∃ u us, vs = (u :: us).map .term ∧ t = .sequence u us := by
  cases vs with
  | nil => simp [makeSequence, reject]
  | cons v vs =>
    rw [makeSequence, Value.toTerm_then_toTerms_eq_ok_iff]
    simp only [List.map_cons, List.cons.injEq, and_assoc]

/-- A choice is made of terms, of which there is one. -/
theorem makeAlternatives_eq_ok_iff {vs : List Value} :
    makeAlternatives vs = .ok t ↔ ∃ u us, vs = (u :: us).map .term ∧ t = .alternatives u us := by
  cases vs with
  | nil => simp [makeAlternatives, reject]
  | cons v vs =>
    rw [makeAlternatives, Value.toTerm_then_toTerms_eq_ok_iff]
    simp only [List.map_cons, List.cons.injEq, and_assoc]

/-- An optional term is made of a term. -/
theorem makeOptional_eq_ok_iff {body : Value} :
    makeOptional body = .ok t ↔ ∃ u, body = .term u ∧ t = .optional u := by
  simp only [makeOptional, bind_eq_ok_iff, Value.toTerm_eq_ok_iff, pure, Except.pure,
    Except.ok.injEq, eq_comm (b := t)]

/-- Bounds are a least count and nothing or a greatest one that is not below it. -/
theorem repeatWithin_eq_ok_iff {body : Term} {min max : Value} :
    repeatWithin body min max = .ok t ↔
      ∃ (least : Nat) (most : Option Nat), min = .int least ∧ max = ofBound most ∧
        (∀ n ∈ most, least ≤ n) ∧ t = .repetition body least most := by
  simp only [repeatWithin, bind_eq_ok_iff, Value.toMinimum_eq_ok_iff, Value.toMaximum_eq_ok_iff,
    pure, Except.pure, Except.ok.injEq, eq_comm (b := t)]
  constructor
  · rintro ⟨least, rfl, most, ⟨rfl, hle⟩, rfl⟩
    exact ⟨least, most, rfl, rfl, hle, rfl⟩
  · rintro ⟨least, most, rfl, rfl, hle, rfl⟩
    exact ⟨least, rfl, most, ⟨rfl, hle⟩, rfl⟩

/-- A repetition is made of a term and bounds. -/
theorem makeRepetition_eq_ok_iff {body min max : Value} :
    makeRepetition body min max = .ok t ↔
      ∃ u, body = .term u ∧ repeatWithin u min max = .ok t := by
  simp only [makeRepetition, bind_eq_ok_iff, Value.toTerm_eq_ok_iff]

/-! ## Spliced constructions -/

/-- Terms in order are made one term. -/
theorem sequenceOf_eq_ok_iff {first : Value} {rest : List Value} :
    sequenceOf first rest = .ok t ↔
      ∃ u us, first = .term u ∧ rest = us.map .term ∧ t = u.followedBy us :=
  Value.toTerm_then_toTerms_eq_ok_iff

/-- Terms to choose from are made one term. -/
theorem choiceOf_eq_ok_iff {first : Value} {rest : List Value} :
    choiceOf first rest = .ok t ↔
      ∃ u us, first = .term u ∧ rest = us.map .term ∧ t = u.orElse us :=
  Value.toTerm_then_toTerms_eq_ok_iff

/-- Terms in order are made one optional term. -/
theorem optionalOf_eq_ok_iff {vs : List Value} :
    optionalOf vs = .ok t ↔ ∃ us, vs = us.map .term ∧ t = .optional (concat us) := by
  simp only [optionalOf, bind_eq_ok_iff, Value.toTerms_eq_ok_iff, pure, Except.pure,
    Except.ok.injEq, eq_comm (b := t)]

/-- Terms in order and bounds are made one repetition. -/
theorem repetitionOf_eq_ok_iff {min max : Value} {vs : List Value} :
    repetitionOf min max vs = .ok t ↔
      ∃ (us : List Term) (least : Nat) (most : Option Nat), vs = us.map .term ∧
        min = .int least ∧ max = ofBound most ∧ (∀ n ∈ most, least ≤ n) ∧
        t = .repetition (concat us) least most := by
  simp only [repetitionOf, bind_eq_ok_iff, Value.toTerms_eq_ok_iff, repeatWithin_eq_ok_iff,
    exists_and_left]

/-- Exactly a character set gets further exclusions. -/
theorem excluding_eq_ok_iff {values : List Value} {u : Term} :
    u.excluding values = .ok t ↔
      ∃ name old points, u = .characterSet name old ∧ mergeExcluded old values = .ok points ∧
        t = .characterSet name points := by
  cases u with
  | characterSet name old =>
    simp only [excluding, bind_eq_ok_iff, pure, Except.pure, Except.ok.injEq, eq_comm (b := t),
      Term.characterSet.injEq, and_assoc, exists_and_left, exists_eq_left']
  | _ => simp [excluding]

end Term

end FormalGrammar

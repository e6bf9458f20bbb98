import FormalGrammar.Proofs.Construction
import FormalGrammar.Proofs.Equality

/-!
# Merged exclusions

Exclusions are merged under equality and only then checked. What is left after
merging are integers, and no truth value or decimal that equals one: those only
pass where an equal integer comes before them. So the ascending list that a
character set keeps stands for the merged set without loss.
-/

namespace FormalGrammar

namespace Value

/-- Integers are equal as values exactly if they are equal. -/
theorem same_int_iff {m n : Int} : (Value.int m).same (.int n) = true ↔ m = n := by
  rw [same_of_number rfl]
  simp [sameNumber, number?]

/-- Exactly the integers below the limit that are not negative are code points. -/
theorem codePoint?_eq_some_iff {v : Value} {n : Nat} :
    v.codePoint? = some n ↔ v = .int n ∧ n < codePointLimit := by
  cases v with
  | int m =>
    cases m with
    | ofNat k =>
      simp only [codePoint?, Option.ite_none_right_eq_some, Option.some.injEq, Value.int.injEq,
        Int.ofNat_eq_natCast, Int.natCast_inj]
      constructor
      · rintro ⟨hk, rfl⟩
        exact ⟨rfl, hk⟩
      · rintro ⟨rfl, hn⟩
        exact ⟨hn, rfl⟩
    | negSucc k => simp [codePoint?]
  | _ => simp [codePoint?]

/-- Numbers below the limit are the code points that they are as values. -/
theorem filterMap_codePoint?_map {ns : List Nat} (h : ∀ n ∈ ns, n < codePointLimit) :
    (ns.map fun n : Nat => Value.int n).filterMap codePoint? = ns := by
  induction ns with
  | nil => rfl
  | cons n ns ih =>
    rw [List.forall_mem_cons] at h
    have hn : (Value.int n).codePoint? = some n := codePoint?_eq_some_iff.mpr ⟨rfl, h.1⟩
    rw [List.map_cons, List.filterMap_cons_some hn, ih h.2]

/-- Code points are, as values, the numbers that they are. -/
theorem eq_map_filterMap_codePoint? {vs : List Value} (h : ∀ v ∈ vs, v.codePoint?.isNone = false) :
    vs = (vs.filterMap codePoint?).map (fun n => .int n) ∧
      ∀ n ∈ vs.filterMap codePoint?, n < codePointLimit := by
  induction vs with
  | nil => exact ⟨rfl, List.forall_mem_nil _⟩
  | cons v vs ih =>
    rw [List.forall_mem_cons, Option.isNone_eq_false_iff, Option.isSome_iff_exists] at h
    obtain ⟨⟨n, hn⟩, hvs⟩ := h
    obtain ⟨rfl, hlimit⟩ := codePoint?_eq_some_iff.mp hn
    obtain ⟨hmap, hall⟩ := ih hvs
    rw [List.filterMap_cons_some hn, List.map_cons, ← hmap]
    exact ⟨rfl, List.forall_mem_cons.mpr ⟨hlimit, hall⟩⟩

/-- Exactly lists of numbers below the limit pass the check for code points. -/
theorem toCodePoints_eq_ok_iff {vs : List Value} {ns : List Nat} :
    toCodePoints vs = .ok ns ↔ vs = ns.map (fun n => .int n) ∧ ∀ n ∈ ns, n < codePointLimit := by
  constructor
  · intro h
    rw [toCodePoints] at h
    split at h
    case h_1 hnone =>
      cases h
      refine eq_map_filterMap_codePoint? fun v hv => ?_
      exact Bool.eq_false_iff.mpr (List.filter_eq_nil_iff.mp hnone v hv)
    case h_2 => cases h
  · rintro ⟨rfl, hns⟩
    have hnone : (ns.map fun n : Nat => Value.int n).filter (·.codePoint?.isNone) = [] := by
      rw [List.filter_eq_nil_iff, List.forall_mem_map]
      intro n hn
      rw [codePoint?_eq_some_iff.mpr ⟨rfl, hns n hn⟩]
      exact Bool.false_ne_true
    simp only [toCodePoints, hnone, filterMap_codePoint?_map hns]

/-- The check for code points complains about all that are none. -/
theorem toCodePoints_eq_error_iff {vs : List Value} {e : Error} :
    toCodePoints vs = .error e ↔
      ∃ v others, e = .construction (.notACodePoint v others) ∧
        vs.filter (·.codePoint?.isNone) = v :: others := by
  rw [toCodePoints]
  split
  case h_1 hnone => simp [hnone]
  case h_2 v others hsome =>
    rw [hsome]
    constructor
    · rintro ⟨⟩
      exact ⟨v, others, rfl, rfl⟩
    · rintro ⟨_, _, rfl, ⟨⟩⟩
      rfl

/-- Values none of which equals an earlier one are all kept. -/
theorem distinct_eq_self {vs : List Value} (h : vs.Pairwise fun v w => v.same w = false) :
    distinct vs = vs := by
  -- the values kept so far stand before those to come
  have hfold (kept : List Value) (h : (kept ++ vs).Pairwise fun v w => v.same w = false) :
      vs.foldl (fun kept v => if kept.any (·.same v) then kept else kept ++ [v]) kept =
        kept ++ vs := by
    induction vs generalizing kept with
    | nil => simp
    | cons v vs ih =>
      have hvs := (List.pairwise_cons.mp (List.pairwise_append.mp h).2.1).2
      have hv : kept.any (·.same v) = false := by
        rw [List.any_eq_false]
        intro w hw
        have := (List.pairwise_append.mp h).2.2 w hw v List.mem_cons_self
        simp [this]
      rw [List.append_cons] at h
      rw [List.foldl_cons, hv, if_neg Bool.false_ne_true, ih hvs (kept ++ [v]) h,
        List.append_assoc, List.singleton_append]
  exact hfold [] h

end Value

/-- Numbers that ascend already are left as they are. -/
theorem ascending_eq_self {ns : List Nat} (h : ns.Pairwise (· < ·)) : ascending ns = ns := by
  induction ns with
  | nil => rfl
  | cons n ns ih =>
    rw [List.pairwise_cons] at h
    have hrest : ascending ns = ns := ih h.2
    rw [ascending, List.foldr_cons, ← ascending, hrest]
    cases ns with
    | nil => rfl
    | cons m ms => rw [insertAscending, if_pos (h.1 m List.mem_cons_self)]

/-- Merging succeeds exactly if the further values can be members of a set and what is left after
merging are code points; these are kept in ascending order. -/
theorem mergeExcluded_eq_ok_iff {old points : List Nat} {values : List Value} :
    mergeExcluded old values = .ok points ↔
      (∀ v ∈ values, v.unhashable? = none) ∧ ∃ ns : List Nat,
        Value.distinct (old.map (fun n => .int n) ++ values) = ns.map (fun n => .int n) ∧
        (∀ n ∈ ns, n < codePointLimit) ∧ points = ascending ns := by
  simp only [mergeExcluded, bind_eq_ok_iff, Value.toCodePoints_eq_ok_iff, pure, Except.pure,
    Except.ok.injEq, and_assoc, eq_comm (b := points), ← checkHashable_eq_ok_iff]
  constructor
  · rintro ⟨⟨⟩, hh, h⟩
    exact ⟨hh, h⟩
  · rintro ⟨hh, h⟩
    exact ⟨(), hh, h⟩

/-- If values that can be members of a set are not merged, then for members of the merged set that
are no code points. -/
theorem error_of_mergeExcluded {old : List Nat} {values : List Value} {e : Error}
    (h : ∀ v ∈ values, v.unhashable? = none) (he : mergeExcluded old values = .error e) :
    ∃ v others, e = .construction (.notACodePoint v others) ∧
      (Value.distinct (old.map (fun n => .int n) ++ values)).filter (·.codePoint?.isNone) =
        v :: others := by
  rcases bind_eq_error_iff.mp he with hunhashable | ⟨_, -, hrest⟩
  · rw [checkHashable_eq_ok_iff.mpr h] at hunhashable
    cases hunhashable
  rcases bind_eq_error_iff.mp hrest with hrefused | ⟨points, -, hmerged⟩
  · exact Value.toCodePoints_eq_error_iff.mp hrefused
  · cases hmerged

/-- The members of the merged set are exactly the integers that the exclusions list. -/
theorem mem_distinct_iff_of_mergeExcluded {old points : List Nat} {values : List Value}
    (h : mergeExcluded old values = .ok points) {v : Value} :
    v ∈ Value.distinct (old.map (fun n => .int n) ++ values) ↔ ∃ n ∈ points, v = .int n := by
  obtain ⟨_, ns, hd, _, rfl⟩ := mergeExcluded_eq_ok_iff.mp h
  simp only [hd, List.mem_map, mem_ascending, eq_comm (b := v)]

/-- Merged exclusions ascend and are code points. -/
theorem sound_of_mergeExcluded {old points : List Nat} {values : List Value}
    (h : mergeExcluded old values = .ok points) :
    points.Pairwise (· < ·) ∧ ∀ n ∈ points, n < codePointLimit := by
  obtain ⟨_, ns, _, hns, rfl⟩ := mergeExcluded_eq_ok_iff.mp h
  exact ⟨pairwise_ascending ns, fun n hn => hns n (mem_ascending.mp hn)⟩

/-- Ascending numbers as values are all kept. -/
theorem Value.distinct_map_int {ns : List Nat} (h : ns.Pairwise (· < ·)) :
    distinct (ns.map fun n : Nat => .int n) = ns.map fun n : Nat => .int n := by
  refine distinct_eq_self ?_
  rw [List.pairwise_map]
  refine h.imp fun {m n} hmn => ?_
  rw [← Bool.not_eq_true, same_int_iff]
  omega

/-- Ascending code points are merged into no exclusions as they are. -/
theorem mergeExcluded_of_ascending {points : List Nat} (ha : points.Pairwise (· < ·))
    (hp : ∀ n ∈ points, n < codePointLimit) :
    mergeExcluded [] (points.map fun n : Nat => .int n) = .ok points := by
  refine mergeExcluded_eq_ok_iff.mpr
    ⟨?_, points, Value.distinct_map_int ha, hp, (ascending_eq_self ha).symm⟩
  intro v hv
  obtain ⟨n, _, rfl⟩ := List.mem_map.mp hv
  rfl

end FormalGrammar

import FormalGrammar.Proofs.Exclusions
import FormalGrammar.Term.WellFormed
import Mathlib.Data.List.Sort

/-!
# Excluding values one after the other

Further exclusions are merged as if they were given one by one. A value that
equals an excluded code point is passed over unchecked, and any other value has
to be a code point. So one call does what a chain of calls does, and the order of
the values decides only over those that equal a code point without being one:
they pass behind that code point and are refused in front of it.
-/

namespace FormalGrammar

/-- Whether a value is an integer, and no truth value, from 0 to U+10FFFF. -/
def Value.IsCodePoint (v : Value) : Prop := ∃ n : Nat, v = .int n ∧ n < codePointLimit

/-- Whether code points can be the exclusions of a character set: they ascend. -/
structure IsExclusions (points : List Nat) : Prop where
  ascending : points.Pairwise (· < ·)
  codePoints : ∀ n ∈ points, n < codePointLimit

/-- Whether a value is accepted behind exclusions and further values: it is a code point, or it
equals a code point among them. -/
def Value.PassesAfter (old : List Nat) (before : List Value) (v : Value) : Prop :=
  v.IsCodePoint ∨ ∃ n : Nat, n < codePointLimit ∧ (n ∈ old ∨ .int n ∈ before) ∧
    (Value.int n).same v = true

/-- Whether a value equals no code point without being it. Truth values and many decimals do. -/
def Value.EqualsNoOther (v : Value) : Prop :=
  ∀ n : Nat, n < codePointLimit → (Value.int n).same v = true → v = .int n

/-- The exclusions with one more value, if it can be excluded. -/
def excludeNext (points : List Nat) (v : Value) : Option (List Nat) :=
  if ∃ n ∈ points, (Value.int n).same v = true then some points
  else v.codePoint?.map (insertAscending · points)

variable {old points : List Nat} {v : Value} {vs : List Value} {e : Error}

namespace Value

/-- Exactly the code points are not taken for something else. -/
theorem isNone_codePoint?_iff : v.codePoint?.isNone = true ↔ ¬ v.IsCodePoint := by
  rw [Option.isNone_iff_eq_none, Option.eq_none_iff_forall_ne_some, IsCodePoint, not_exists]
  exact forall_congr' fun n => not_congr codePoint?_eq_some_iff

/-- Code points are no parts that could stand in the way in a set. -/
theorem IsCodePoint.unhashable? (h : v.IsCodePoint) : v.unhashable? = none := by
  obtain ⟨n, rfl, _⟩ := h
  rfl

/-- A value that equals no code point but itself passes only if it is a code point. -/
theorem EqualsNoOther.passesAfter_iff (h : v.EqualsNoOther) :
    v.PassesAfter old vs ↔ v.IsCodePoint := by
  refine ⟨?_, Or.inl⟩
  rintro (hv | ⟨n, hn, -, hsame⟩)
  · exact hv
  · exact ⟨n, h n hn hsame, hn⟩

/-- Keep a value that equals none of those kept before it. -/
def keepNew (kept : List Value) (v : Value) : List Value :=
  if kept.any (·.same v) then kept else kept ++ [v]

/-- What is kept stays in front of what is kept later. -/
theorem exists_foldl_keepNew (kept vs : List Value) :
    ∃ new, vs.foldl keepNew kept = kept ++ new := by
  induction vs generalizing kept with
  | nil => exact ⟨[], (List.append_nil kept).symm⟩
  | cons v vs ih =>
    obtain ⟨new, hnew⟩ := ih (keepNew kept v)
    rw [List.foldl_cons, hnew, keepNew]
    split
    · exact ⟨new, rfl⟩
    · exact ⟨v :: new, List.append_assoc ..⟩

/-- What is kept was there or is new. -/
theorem mem_of_mem_foldl_keepNew {kept vs : List Value} (h : v ∈ vs.foldl keepNew kept) :
    v ∈ kept ∨ v ∈ vs := by
  induction vs generalizing kept with
  | nil => exact Or.inl h
  | cons w vs ih =>
    rw [List.mem_cons]
    rcases ih h with hkept | hvs
    · rw [keepNew] at hkept
      split at hkept
      · exact Or.inl hkept
      · rw [List.mem_append, List.mem_singleton] at hkept
        exact hkept.imp_right Or.inl
    · exact Or.inr (Or.inr hvs)

/-- A merged set has no members but those that were merged. -/
theorem mem_of_mem_distinct (h : v ∈ distinct vs) : v ∈ vs := by
  have hkept : v ∈ vs.foldl keepNew [] := h
  exact (mem_of_mem_foldl_keepNew hkept).resolve_left List.not_mem_nil

end Value

/-- Numbers with one more behind them are put in order by inserting it. -/
theorem ascending_concat (ns : List Nat) (n : Nat) :
    ascending (ns ++ [n]) = insertAscending n (ascending ns) := by
  refine (pairwise_ascending _).eq_of_mem_iff
    (pairwise_insertAscending (pairwise_ascending ns)) fun k => ?_
  rw [mem_ascending, mem_insertAscending, mem_ascending, List.mem_append, List.mem_singleton,
    or_comm]

/-- Excluding one value after the other is keeping the new ones, checking all that is kept and
putting it in order. -/
theorem foldlM_excludeNext_eq_some_iff (h : ∀ n ∈ points, n < codePointLimit)
    {merged : List Nat} :
    vs.foldlM excludeNext (ascending points) = some merged ↔
      ∃ ns : List Nat, vs.foldl Value.keepNew (points.map fun n : Nat => .int n) =
          ns.map (fun n => .int n) ∧
        (∀ n ∈ ns, n < codePointLimit) ∧ merged = ascending ns := by
  induction vs generalizing points with
  | nil =>
    constructor
    · rintro ⟨⟩
      exact ⟨points, rfl, h, rfl⟩
    · rintro ⟨ns, hmap, hns, rfl⟩
      have hpoints := congrArg (List.filterMap Value.codePoint?) hmap
      rw [List.foldl_nil, Value.filterMap_codePoint?_map h,
        Value.filterMap_codePoint?_map hns] at hpoints
      rw [hpoints]
      rfl
  | cons v vs ih =>
    have hequal : (points.map fun n : Nat => Value.int n).any (·.same v) = true ↔
        ∃ n ∈ ascending points, (Value.int n).same v = true := by
      simp [mem_ascending]
    simp only [List.foldl_cons, List.foldlM_cons, Value.keepNew, excludeNext, hequal]
    split
    · exact ih h
    · cases hv : v.codePoint? with
      | some n =>
        obtain ⟨rfl, hn⟩ := Value.codePoint?_eq_some_iff.mp hv
        have hpoints : ∀ k ∈ points ++ [n], k < codePointLimit := by
          rw [List.forall_mem_append]
          exact ⟨h, List.forall_mem_singleton.mpr hn⟩
        have hkept := ih hpoints
        rw [List.map_append, ascending_concat] at hkept
        exact hkept
      | none =>
        -- a value that is kept without being a code point stays until the check
        refine iff_of_false (by simp) ?_
        rintro ⟨ns, hmap, hns, -⟩
        obtain ⟨new, hnew⟩ := Value.exists_foldl_keepNew
          ((points.map fun n : Nat => .int n) ++ [v]) vs
        have hmem : v ∈ ns.map fun n : Nat => Value.int n := by
          rw [← hmap, hnew]
          simp
        obtain ⟨n, hn, rfl⟩ := List.mem_map.mp hmem
        rw [Value.codePoint?_eq_some_iff.mpr ⟨rfl, hns n hn⟩] at hv
        cases hv

/-- Values are merged into exclusions one after the other. -/
theorem mergeExcluded_eq_ok_iff_foldlM (hold : IsExclusions old)
    (hvs : ∀ v ∈ vs, v.unhashable? = none) :
    mergeExcluded old vs = .ok points ↔ vs.foldlM excludeNext old = some points := by
  have hdistinct : Value.distinct (old.map (fun n => .int n) ++ vs) =
      vs.foldl Value.keepNew (old.map fun n : Nat => .int n) := by
    rw [Value.distinct, List.foldl_append]
    change vs.foldl Value.keepNew (Value.distinct _) = _
    rw [Value.distinct_map_int hold.ascending]
  rw [mergeExcluded_eq_ok_iff, and_iff_right hvs, hdistinct,
    ← foldlM_excludeNext_eq_some_iff hold.codePoints, ascending_eq_self hold.ascending]

/-! ## One value -/

/-- A value is passed over if it equals an excluded code point, and inserted otherwise. -/
theorem excludeNext_eq_some_iff :
    excludeNext old v = some points ↔
      if ∃ n ∈ old, (Value.int n).same v = true then points = old
      else ∃ n : Nat, v = .int n ∧ n < codePointLimit ∧ points = insertAscending n old := by
  rw [excludeNext]
  split
  · rw [Option.some.injEq, eq_comm]
  · simp only [Option.map_eq_some_iff, Value.codePoint?_eq_some_iff, and_assoc,
      eq_comm (b := points)]

/-- One value can be excluded exactly if it passes behind the exclusions. -/
theorem exists_excludeNext_iff (hold : IsExclusions old) :
    (∃ points, excludeNext old v = some points) ↔ v.PassesAfter old [] := by
  simp only [excludeNext_eq_some_iff, Value.PassesAfter, List.not_mem_nil, or_false]
  split
  · rename_i h
    obtain ⟨n, hn, hv⟩ := h
    exact iff_of_true ⟨old, rfl⟩ (Or.inr ⟨n, hold.codePoints n hn, hn, hv⟩)
  · rename_i h
    constructor
    · rintro ⟨_, n, hv, hn, -⟩
      exact Or.inl ⟨n, hv, hn⟩
    · rintro (⟨n, hv, hn⟩ | ⟨n, -, hn, hv⟩)
      · exact ⟨_, n, hv, hn, rfl⟩
      · exact absurd ⟨n, hn, hv⟩ h

/-- Excluding one value adds it if it is an integer, and nothing else. -/
theorem sound_of_excludeNext (hold : IsExclusions old) (h : excludeNext old v = some points) :
    IsExclusions points ∧ ∀ n : Nat, n ∈ points ↔ n ∈ old ∨ v = .int n := by
  rw [excludeNext_eq_some_iff] at h
  split at h
  · rename_i hequal
    subst h
    refine ⟨hold, fun n => ⟨Or.inl, ?_⟩⟩
    rintro (hn | rfl)
    · exact hn
    -- an integer that is passed over equals an excluded one
    · obtain ⟨m, hm, hsame⟩ := hequal
      obtain rfl := Int.natCast_inj.mp (Value.same_int_iff.mp hsame)
      exact hm
  · obtain ⟨m, rfl, hm, rfl⟩ := h
    refine ⟨⟨pairwise_insertAscending hold.ascending, fun n hn => ?_⟩, fun n => ?_⟩
    · rcases mem_insertAscending.mp hn with rfl | hn
      · exact hm
      · exact hold.codePoints n hn
    · rw [mem_insertAscending, or_comm, Value.int.injEq, Int.natCast_inj, eq_comm]

/-- What passes behind a value and others passes behind the others once the value is excluded. -/
theorem passesAfter_cons_iff (hold : IsExclusions old) (h : excludeNext old v = some points)
    {before : List Value} {w : Value} :
    w.PassesAfter old (v :: before) ↔ w.PassesAfter points before := by
  obtain ⟨-, hmem⟩ := sound_of_excludeNext hold h
  simp only [Value.PassesAfter, hmem, List.mem_cons, or_assoc, eq_comm (b := v)]

/-! ## Any number of values -/

/-- Values can be excluded one after the other exactly if each passes behind those before it. -/
theorem exists_foldlM_excludeNext_iff (hold : IsExclusions old) :
    (∃ points, vs.foldlM excludeNext old = some points) ↔
      ∀ before v after, vs = before ++ v :: after → v.PassesAfter old before := by
  induction vs generalizing old with
  | nil => simp
  | cons v vs ih =>
    simp only [List.foldlM_cons, Option.bind_eq_bind, Option.bind_eq_some_iff]
    constructor
    · rintro ⟨points, next, hnext, hrest⟩ before w after hsplit
      rcases List.cons_eq_append_iff.mp hsplit with ⟨rfl, hvs⟩ | ⟨before, rfl, hvs⟩
      · obtain ⟨rfl, -⟩ := List.cons.inj hvs
        exact (exists_excludeNext_iff hold).mp ⟨next, hnext⟩
      · rw [passesAfter_cons_iff hold hnext]
        exact (ih (sound_of_excludeNext hold hnext).1).mp ⟨points, hrest⟩ before w after hvs
    · intro h
      obtain ⟨next, hnext⟩ := (exists_excludeNext_iff hold).mpr (h [] v vs rfl)
      obtain ⟨points, hrest⟩ := (ih (sound_of_excludeNext hold hnext).1).mpr
        fun before w after hvs =>
          (passesAfter_cons_iff hold hnext).mp (h (v :: before) w after (by rw [hvs]; rfl))
      exact ⟨points, next, hnext, hrest⟩

/-- Excluding values one after the other adds those that are integers, and nothing else. -/
theorem sound_of_foldlM_excludeNext (hold : IsExclusions old)
    (h : vs.foldlM excludeNext old = some points) :
    IsExclusions points ∧ ∀ n : Nat, n ∈ points ↔ n ∈ old ∨ .int n ∈ vs := by
  induction vs generalizing old with
  | nil =>
    cases h
    exact ⟨hold, fun n => by simp⟩
  | cons v vs ih =>
    obtain ⟨next, hnext, hrest⟩ := Option.bind_eq_some_iff.mp h
    obtain ⟨hsound, hmem⟩ := sound_of_excludeNext hold hnext
    obtain ⟨hpoints, hall⟩ := ih hsound hrest
    refine ⟨hpoints, fun n => ?_⟩
    rw [hall, hmem, List.mem_cons, or_assoc, eq_comm (a := v)]

namespace Term

variable {name : String} {us ws : List Value} {t : Term}

/-- The exclusions of a well-formed character set ascend and are code points. -/
theorem WellFormed.isExclusions (h : (characterSet name old).WellFormed) : IsExclusions old :=
  have hsound := (wellFormed_iff.mp h).1
  ⟨hsound.2.1, hsound.2.2⟩

/-- A character set gets further exclusions one after the other. -/
theorem excluding_eq_ok_iff_foldlM (h : (characterSet name old).WellFormed)
    (hvs : ∀ v ∈ vs, v.unhashable? = none) :
    (characterSet name old).excluding vs = .ok t ↔
      ∃ points, vs.foldlM excludeNext old = some points ∧ t = .characterSet name points := by
  simp only [excluding, bind_eq_ok_iff, mergeExcluded_eq_ok_iff_foldlM h.isExclusions hvs, pure,
    Except.pure, Except.ok.injEq, eq_comm (b := t)]

/-- Exactly the values that can be excluded one after the other give a character set. -/
theorem exists_excluding_iff (h : (characterSet name old).WellFormed)
    (hvs : ∀ v ∈ vs, v.unhashable? = none) :
    (∃ t, (characterSet name old).excluding vs = .ok t) ↔
      ∀ before v after, vs = before ++ v :: after → v.PassesAfter old before := by
  rw [← exists_foldlM_excludeNext_iff h.isExclusions]
  simp only [excluding_eq_ok_iff_foldlM h hvs]
  constructor
  · rintro ⟨_, points, hpoints, -⟩
    exact ⟨points, hpoints⟩
  · rintro ⟨points, hpoints⟩
    exact ⟨_, points, hpoints, rfl⟩

/-- A character set with further exclusions has its name and excludes the integers among them. -/
theorem exists_of_excluding (h : (characterSet name old).WellFormed)
    (hvs : ∀ v ∈ vs, v.unhashable? = none)
    (ht : (characterSet name old).excluding vs = .ok t) :
    ∃ points, t = .characterSet name points ∧ IsExclusions points ∧
      ∀ n : Nat, n ∈ points ↔ n ∈ old ∨ .int n ∈ vs := by
  obtain ⟨points, hpoints, rfl⟩ := (excluding_eq_ok_iff_foldlM h hvs).mp ht
  exact ⟨points, rfl, sound_of_foldlM_excludeNext h.isExclusions hpoints⟩

/-- Values are refused only for being no code points, and the error holds none but such values. -/
theorem error_of_excluding (h : (characterSet name old).WellFormed)
    (hvs : ∀ v ∈ vs, v.unhashable? = none)
    (he : (characterSet name old).excluding vs = .error e) :
    ∃ v others, e = .construction (.notACodePoint v others) ∧
      ∀ w ∈ v :: others, w ∈ vs ∧ ¬ w.IsCodePoint := by
  rcases bind_eq_error_iff.mp he with hmerged | ⟨points, -, hmade⟩
  · obtain ⟨v, others, rfl, hrefused⟩ := error_of_mergeExcluded hvs hmerged
    refine ⟨v, others, rfl, fun w hw => ?_⟩
    rw [← hrefused, List.mem_filter] at hw
    have hnone : ¬ w.IsCodePoint := Value.isNone_codePoint?_iff.mp hw.2
    rcases List.mem_append.mp (Value.mem_of_mem_distinct hw.1) with hold | hnew
    · obtain ⟨n, hn, rfl⟩ := List.mem_map.mp hold
      exact absurd ⟨n, rfl, h.isExclusions.codePoints n hn⟩ hnone
    · exact ⟨hnew, hnone⟩
  · cases hmade

/-- Two calls succeed and exclude what one call with the values of both does. -/
theorem excluding_append_eq_ok_iff (h : (characterSet name old).WellFormed)
    (hvs : ∀ v ∈ us ++ ws, v.unhashable? = none) :
    (characterSet name old).excluding (us ++ ws) = .ok t ↔
      ∃ u, (characterSet name old).excluding us = .ok u ∧ u.excluding ws = .ok t := by
  obtain ⟨hus, hws⟩ := List.forall_mem_append.mp hvs
  have hwell {points : List Nat} (hpoints : us.foldlM excludeNext old = some points) :
      (characterSet name points).WellFormed := by
    have hsound := (sound_of_foldlM_excludeNext h.isExclusions hpoints).1
    exact wellFormed_of_leaf ⟨(wellFormed_iff.mp h).1.1, hsound.ascending, hsound.codePoints⟩ rfl
  rw [excluding_eq_ok_iff_foldlM h hvs, List.foldlM_append]
  simp only [excluding_eq_ok_iff_foldlM h hus, Option.bind_eq_bind, Option.bind_eq_some_iff]
  constructor
  · rintro ⟨points, ⟨between, hbetween, hpoints⟩, rfl⟩
    refine ⟨_, ⟨between, hbetween, rfl⟩, ?_⟩
    exact (excluding_eq_ok_iff_foldlM (hwell hbetween) hws).mpr ⟨points, hpoints, rfl⟩
  · rintro ⟨_, ⟨between, hbetween, rfl⟩, hmade⟩
    obtain ⟨points, hpoints, rfl⟩ := (excluding_eq_ok_iff_foldlM (hwell hbetween) hws).mp hmade
    exact ⟨points, ⟨between, hbetween, hpoints⟩, rfl⟩

/-- Any code points can be excluded. -/
theorem exists_excluding_of_codePoints (h : (characterSet name old).WellFormed)
    (hvs : ∀ v ∈ vs, v.IsCodePoint) : ∃ t, (characterSet name old).excluding vs = .ok t := by
  refine (exists_excluding_iff h fun v hv => (hvs v hv).unhashable?).mpr
    fun before v after hsplit => Or.inl (hvs v ?_)
  rw [hsplit]
  exact List.mem_append_right before List.mem_cons_self

/-- Among values that equal no code point but themselves, exactly code points can be excluded. -/
theorem exists_excluding_iff_of_equalsNoOther (h : (characterSet name old).WellFormed)
    (hvs : ∀ v ∈ vs, v.unhashable? = none) (hplain : ∀ v ∈ vs, v.EqualsNoOther) :
    (∃ t, (characterSet name old).excluding vs = .ok t) ↔ ∀ v ∈ vs, v.IsCodePoint := by
  refine ⟨fun hmade v hv => ?_, exists_excluding_of_codePoints h⟩
  obtain ⟨before, after, hsplit⟩ := List.append_of_mem hv
  exact (hplain v hv).passesAfter_iff.mp
    ((exists_excluding_iff h hvs).mp hmade before v after hsplit)

/-- The same code points in another order and number give the same character set. -/
theorem excluding_of_mem_iff (h : (characterSet name old).WellFormed)
    (hvs : ∀ v ∈ vs, v.IsCodePoint) (hmem : ∀ v, v ∈ us ↔ v ∈ vs)
    (ht : (characterSet name old).excluding vs = .ok t) :
    (characterSet name old).excluding us = .ok t := by
  have hus : ∀ v ∈ us, v.IsCodePoint := fun v hv => hvs v ((hmem v).mp hv)
  obtain ⟨u, hu⟩ := exists_excluding_of_codePoints h hus
  obtain ⟨points, rfl, hpoints, hin⟩ :=
    exists_of_excluding h (fun v hv => (hvs v hv).unhashable?) ht
  obtain ⟨others, rfl, hothers, hin'⟩ :=
    exists_of_excluding h (fun v hv => (hus v hv).unhashable?) hu
  have heq : others = points :=
    hothers.ascending.eq_of_mem_iff hpoints.ascending fun n => by rw [hin', hin, hmem]
  rw [hu, heq]

/-- Values are merged into the exclusions of a character set, and a value that equals a code point
before it is passed over unchecked. The call succeeds exactly if each value is a code point or is
passed over, it excludes the integers among the values in addition, and it is refused only for
values that are no code points. A chain of calls succeeds exactly if one call does, with the same
result. Where no value equals a code point without being it, exactly code points are accepted, in
any order and on top of any exclusions, and all orders give the same set. -/
theorem excluding_passes_over_equals (hset : (characterSet name old).WellFormed)
    (hvs : ∀ v ∈ vs, v.unhashable? = none) :
    ((∃ t, (characterSet name old).excluding vs = .ok t) ↔
      ∀ before v after, vs = before ++ v :: after → v.PassesAfter old before) ∧
    (∀ t, (characterSet name old).excluding vs = .ok t →
      ∃ points, t = .characterSet name points ∧ IsExclusions points ∧
        ∀ n : Nat, n ∈ points ↔ n ∈ old ∨ .int n ∈ vs) ∧
    (∀ e, (characterSet name old).excluding vs = .error e →
      ∃ v others, e = .construction (.notACodePoint v others) ∧
        ∀ w ∈ v :: others, w ∈ vs ∧ ¬ w.IsCodePoint) ∧
    (∀ us ws, vs = us ++ ws → ∀ t, (characterSet name old).excluding vs = .ok t ↔
      ∃ u, (characterSet name old).excluding us = .ok u ∧ u.excluding ws = .ok t) ∧
    ((∀ v ∈ vs, v.EqualsNoOther) →
      ((∃ t, (characterSet name old).excluding vs = .ok t) ↔ ∀ v ∈ vs, v.IsCodePoint) ∧
      ∀ us, (∀ v, v ∈ us ↔ v ∈ vs) → ∀ t,
        (characterSet name old).excluding us = .ok t ↔
          (characterSet name old).excluding vs = .ok t) := by
  refine ⟨exists_excluding_iff hset hvs, fun t => exists_of_excluding hset hvs,
    fun e => error_of_excluding hset hvs, ?_,
    fun hplain => ⟨exists_excluding_iff_of_equalsNoOther hset hvs hplain, ?_⟩⟩
  · rintro us ws rfl t
    exact excluding_append_eq_ok_iff hset hvs
  · intro us hmem t
    have hus : ∀ v ∈ us, v.unhashable? = none := fun v hv => hvs v ((hmem v).mp hv)
    have husPlain : ∀ v ∈ us, v.EqualsNoOther := fun v hv => hplain v ((hmem v).mp hv)
    constructor
    · intro ht
      have hall := (exists_excluding_iff_of_equalsNoOther hset hus husPlain).mp ⟨t, ht⟩
      exact excluding_of_mem_iff hset hall (fun v => (hmem v).symm) ht
    · intro ht
      have hall := (exists_excluding_iff_of_equalsNoOther hset hvs hplain).mp ⟨t, ht⟩
      exact excluding_of_mem_iff hset hall hmem ht

/-- Behind one, which is excluded already, a truth value is passed over. A text equals no code
point, and is refused in any place. -/
theorem excluding_passes_over_equals_sample :
    (characterSet "ANY" [1]).WellFormed ∧
      (∃ t, (characterSet "ANY" [1]).excluding [.int 34, .bool true] = .ok t) ∧
      (∀ v ∈ [Value.int 34, .text "x"], v.EqualsNoOther) ∧
      ¬ ∃ t, (characterSet "ANY" [1]).excluding [.int 34, .text "x"] = .ok t := by
  have hset : (characterSet "ANY" [1]).WellFormed := by decide
  have hquote : (Value.int 34).IsCodePoint := ⟨34, rfl, by decide⟩
  have hpasses : ∀ before v after, [Value.int 34, .bool true] = before ++ v :: after →
      v.PassesAfter [1] before := by
    intro before v after hsplit
    rcases List.cons_eq_append_iff.mp hsplit with ⟨rfl, hfirst⟩ | ⟨before, rfl, hrest⟩
    · cases hfirst
      exact Or.inl hquote
    · rcases List.cons_eq_append_iff.mp hrest with ⟨rfl, hsecond⟩ | ⟨before, rfl, hnone⟩
      · cases hsecond
        exact Or.inr ⟨1, by decide, Or.inl List.mem_cons_self, rfl⟩
      · cases before <;> cases hnone
  have hplain : ∀ v ∈ [Value.int 34, .text "x"], v.EqualsNoOther := by
    simp only [List.forall_mem_cons]
    refine ⟨fun n _ hsame => ?_, fun n _ hsame => ?_, by simp⟩
    · exact congrArg Value.int (Value.same_int_iff.mp hsame).symm
    · cases hsame
  refine ⟨hset, ?_, hplain, ?_⟩
  · refine (excluding_passes_over_equals hset ?_).1.mpr hpasses
    simp [Value.unhashable?]
  · rw [((excluding_passes_over_equals hset (by simp [Value.unhashable?])).2.2.2.2 hplain).1]
    intro hall
    obtain ⟨n, hn, -⟩ := hall (.text "x") (by simp)
    cases hn

/-- A truth value that equals one is no code point. Behind one it is passed over all the same, and
only in front of it refused. -/
theorem truth_value_passes_behind_one :
    (characterSet "ANY" []).excluding [.int 1, .bool true] = .ok (characterSet "ANY" [1]) ∧
      (characterSet "ANY" []).excluding [.bool true, .int 1] =
        .error (.construction (.notACodePoint (.bool true) [])) ∧
      ¬ (Value.bool true).IsCodePoint := by
  refine ⟨rfl, rfl, ?_⟩
  rintro ⟨n, hn, -⟩
  cases hn

end Term

end FormalGrammar

import FormalGrammar.Proofs.Bracketing
import FormalGrammar.Proofs.FlatTerms

/-!
# Sequences as a monoid

Shallow terms are made into one sequence no matter which of them are made into
sequences before, because each term adds its items and what is made of items
adds just them. The empty word is the unit, at least among spliced terms: a term
that is not spliced can be left as it is if it is alone, but not if the empty
word is with it.
-/

namespace FormalGrammar

/-- Whether a list is another with the empty word inserted at any places. -/
inductive Padded : List Term → List Term → Prop
  | nil : Padded [] []
  | keep (t : Term) {ts us : List Term} : Padded ts us → Padded (t :: ts) (t :: us)
  | insert {ts us : List Term} : Padded ts us → Padded ts (.epsilon :: us)

namespace Term

/-! ## Terms in groups -/

/-- What shallow terms are made into has the items of all of them. -/
theorem items_followedBy {t : Term} {ts : List Term} (h : ∀ u ∈ t :: ts, u.Shallow) :
    (t.followedBy ts).items = (t :: ts).flatMap items := by
  cases ts with
  | nil => exact (List.flatMap_singleton items t).symm
  | cons u us =>
    refine items_ofItems fun i hi => items_eq_singleton ?_
    obtain ⟨v, hv, hi⟩ := List.mem_flatMap.mp hi
    exact (h v hv).kind_of_mem_items hi

/-- Shallow terms can be made into sequences in groups first. -/
theorem regroups_followedBy : Bracketing.Regroups Shallow followedBy := by
  intro t ts groups h
  obtain ⟨hfirst, hothers⟩ := List.forall_mem_append.mp h
  have hgroup : ∀ g ∈ groups, (g.1.followedBy g.2).items = (g.1 :: g.2).flatMap items :=
    fun g hg => items_followedBy fun u hu => hothers u (List.mem_flatMap.mpr ⟨g, hg, hu⟩)
  cases groups with
  | nil => simp only [List.map_nil, List.flatMap_nil, List.append_nil, followedBy]
  | cons g gs =>
    obtain ⟨u, us, hterms⟩ : ∃ u us, ts ++ (g :: gs).flatMap (fun g => g.1 :: g.2) = u :: us :=
      List.exists_cons_of_ne_nil (by simp)
    have hmade : ((g :: gs).map fun g => g.1.followedBy g.2).flatMap items =
        ((g :: gs).flatMap fun g => g.1 :: g.2).flatMap items := by
      rw [List.flatMap_map, List.flatMap_assoc]
      exact List.flatMap_congr hgroup
    -- there are at least two groups, and hence at least two terms
    calc (t.followedBy ts).followedBy ((g :: gs).map fun g => g.1.followedBy g.2)
        = concat (t.followedBy ts :: (g :: gs).map fun g => g.1.followedBy g.2) := rfl
      _ = concat ((t :: ts) ++ (g :: gs).flatMap fun g => g.1 :: g.2) := by
        rw [concat, concat, List.flatMap_cons, items_followedBy hfirst, hmade,
          List.flatMap_append]
      _ = t.followedBy (ts ++ (g :: gs).flatMap fun g => g.1 :: g.2) := by
        rw [List.cons_append, hterms]
        rfl

/-- The factory for sequences and the operator for them join terms in the same way. -/
theorem joins_followedBy : Bracketing.Joins .sequence .followedBy followedBy where
  alone _ := rfl
  factory t ts := sequenceOf_eq_ok_iff.mpr ⟨t, ts, rfl, rfl, rfl⟩
  operator t u := sequenceOf_eq_ok_iff.mpr ⟨t, [u], rfl, rfl, rfl⟩

/-! ## The empty word -/

/-- Inserting the empty word adds no items. -/
theorem flatMap_items_of_padded {ts us : List Term} (h : Padded ts us) :
    us.flatMap items = ts.flatMap items := by
  induction h with
  | nil => rfl
  | keep t _ ih => rw [List.flatMap_cons, List.flatMap_cons, ih]
  | insert _ ih => rw [List.flatMap_cons, ih, items, List.nil_append]

/-- Inserting the empty word leaves all terms spliced. -/
theorem spliced_of_padded {ts us : List Term} (h : Padded ts us) (hts : ∀ t ∈ ts, t.Spliced) :
    ∀ u ∈ us, u.Spliced := by
  induction h with
  | nil => exact hts
  | keep t _ ih =>
    rw [List.forall_mem_cons] at hts ⊢
    exact ⟨hts.1, ih hts.2⟩
  | insert _ ih => exact List.forall_mem_cons.mpr ⟨trivial, ih hts⟩

/-- A list stays one with terms in it when the empty word is inserted. -/
theorem ne_nil_of_padded {ts us : List Term} (h : Padded ts us) (hts : ts ≠ []) : us ≠ [] := by
  cases h with
  | nil => exact hts
  | keep | insert => exact List.cons_ne_nil _ _

/-- Spliced terms are made into the concatenation of them, even one that is alone. -/
theorem sequence_apply_of_spliced {ts : List Term} (hne : ts ≠ []) (h : ∀ t ∈ ts, t.Spliced) :
    Factory.sequence.apply (ts.map .term) = .ok (concat ts) := by
  cases ts with
  | nil => exact absurd rfl hne
  | cons t ts =>
    rw [joins_followedBy.factory]
    cases ts with
    | nil =>
      rw [concat_singleton_of_spliced (h t (List.mem_singleton_self t))]
      rfl
    | cons u us => rfl

/-- Sequences of flat terms form a monoid. All obtainable terms are flat, and flat ones shallow. Any
bracketing of shallow terms, with calls of the factory nested to any depth and the operator between
any two, makes the same term as one call of the factory for all of them. With the empty word
inserted at any places among flat terms the call makes the same as without. -/
theorem sequence_monoid_laws :
    (∀ t : Term, t.Obtainable → t.Flat) ∧ (∀ t : Term, t.Flat → t.Shallow) ∧
    (∀ (scope : String → Option Value) (b : Bracketing), (∀ t ∈ b.terms, t.Shallow) →
      ∃ t, (b.expression .sequence .followedBy).eval scope = .ok (.term t) ∧
        Factory.sequence.apply (b.terms.map .term) = .ok t) ∧
    ∀ ts us : List Term, ts ≠ [] → Padded ts us → (∀ t ∈ ts, t.Flat) →
      ∃ t, Factory.sequence.apply (ts.map .term) = .ok t ∧
        Factory.sequence.apply (us.map .term) = .ok t := by
  have hspliced {t : Term} (h : t.Flat) : t.Spliced := (flat_iff.mp h).1
  refine ⟨fun t h => h.regular.flat, fun t h => (hspliced h).shallow, fun scope b hb => ?_,
    fun ts us hne hp hts => ?_⟩
  · exact ⟨b.first.followedBy b.rest, b.evalWith_expression joins_followedBy regroups_followedBy hb,
      joins_followedBy.factory b.first b.rest⟩
  · have hs : ∀ t ∈ ts, t.Spliced := fun t ht => hspliced (hts t ht)
    have hpadded := sequence_apply_of_spliced (ne_nil_of_padded hp hne) (spliced_of_padded hp hs)
    rw [concat, flatMap_items_of_padded hp] at hpadded
    exact ⟨concat ts, sequence_apply_of_spliced hne hs, hpadded⟩

/-- A sign and a number, the fraction of which is a sequence already, in nested brackets: a group of
a term alone, a pair, and the empty word, which is no less a term than the others. -/
def bracketedSample : Bracketing :=
  .group (.group (.term (.optional (.literal "-" (.bool true)))) [])
    [.pair (.group (.term (.nonTerminal "digits")) [.term .epsilon])
      (.term (.sequence (.literal "." (.bool true)) [.nonTerminal "digits"])), .term .epsilon]

/-- The terms of the sample with the empty word before and after the sign. -/
def paddedSample : List Term :=
  .epsilon :: bracketedSample.first :: .epsilon :: bracketedSample.rest

/-- The sample makes one sequence of a sign, digits, a point and digits, and so does one call with
the empty word before and after the sign. -/
theorem sequence_monoid_laws_sample :
    (∀ t ∈ bracketedSample.terms, t.Flat ∧ t.Shallow) ∧ bracketedSample.terms ≠ [] ∧
      Padded bracketedSample.terms paddedSample ∧
      ((bracketedSample.expression .sequence .followedBy).eval fun _ => none) =
        .ok (.term (.sequence (.optional (.literal "-" (.bool true)))
          [.nonTerminal "digits", .literal "." (.bool true), .nonTerminal "digits"])) ∧
      Factory.sequence.apply (paddedSample.map .term) =
        .ok (.sequence (.optional (.literal "-" (.bool true)))
          [.nonTerminal "digits", .literal "." (.bool true), .nonTerminal "digits"]) := by
  obtain ⟨_, _, hbrackets, hpadding⟩ := sequence_monoid_laws
  have hterms : ∀ t ∈ bracketedSample.terms, t.Flat ∧ t.Shallow := by decide
  have hsame (ts : List Term) : Padded ts ts := by
    induction ts with
    | nil => exact .nil
    | cons t ts ih => exact .keep t ih
  have hpadded := Padded.insert (.keep bracketedSample.first (.insert (hsame bracketedSample.rest)))
  obtain ⟨t, hvalue, hcall⟩ :=
    hbrackets (fun _ => none) bracketedSample fun t ht => (hterms t ht).2
  obtain ⟨u, hplain, hwith⟩ :=
    hpadding _ _ (List.cons_ne_nil _ _) hpadded fun t ht => (hterms t ht).1
  cases hcall
  cases hplain
  exact ⟨hterms, List.cons_ne_nil _ _, hpadded, hvalue, hwith⟩

end Term

end FormalGrammar

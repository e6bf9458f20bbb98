import FormalGrammar.Operation
import FormalGrammar.Proofs.Requests
import FormalGrammar.Term.Language

/-!
# Splicing keeps the language

Whatever terms are spliced, however they are nested and whoever made them, the
result describes the same words as the terms left as they were: concatenations
for terms in order, the union for terms to choose from. What is made optional or
repeated is the concatenation. This holds for every reading of the leaves.
-/

namespace FormalGrammar

variable {α : Type}

/-- Words before the empty word alone are these words. -/
theorem Language.product_empty_right (L : Language α) : product L (fun w => w = []) = L := by
  funext w
  apply propext
  constructor
  · rintro ⟨u, v, rfl, hu, rfl⟩
    rw [List.append_nil]
    exact hu
  · intro hw
    exact ⟨w, [], (List.append_nil w).symm, hw, rfl⟩

namespace Term

variable {I : Interpretation α}

/-! ## Terms in order -/

/-- One term in order describes what it describes. -/
theorem denotesInOrder_singleton (t : Term) : DenotesInOrder I [t] = t.Denotes I :=
  Language.product_empty_right (t.Denotes I)

/-- The items of a term in order describe what the term describes. -/
theorem denotesInOrder_items (t : Term) : DenotesInOrder I t.items = t.Denotes I := by
  cases t with
  | sequence t ts => rfl
  | epsilon => rfl
  | _ => exact denotesInOrder_singleton _

/-- Taking every term of a list apart into its items changes nothing about what the terms describe
in order. -/
theorem denotesInOrder_flatMap_items (ts : List Term) :
    DenotesInOrder I (ts.flatMap items) = DenotesInOrder I ts := by
  induction ts with
  | nil => rfl
  | cons t ts ih =>
    have happend : DenotesInOrder I (t.items ++ ts.flatMap items) =
        (DenotesInOrder I t.items).product (DenotesInOrder I (ts.flatMap items)) :=
      funext fun _ => propext denotesInOrder_append
    rw [List.flatMap_cons, happend, denotesInOrder_items, ih]
    rfl

/-- A list of items describes in order what the term that stands for it describes. -/
theorem denotes_ofItems (ts : List Term) : (ofItems ts).Denotes I = DenotesInOrder I ts := by
  match ts with
  | [] => rfl
  | [t] => exact (denotesInOrder_singleton t).symm
  | t :: u :: us => rfl

/-- Concatenated terms describe what they describe in order. -/
theorem denotes_concat (ts : List Term) : (concat ts).Denotes I = DenotesInOrder I ts := by
  rw [concat, denotes_ofItems, denotesInOrder_flatMap_items]

/-- A term followed by others describes what they describe in order. -/
theorem denotes_followedBy (t : Term) (ts : List Term) :
    (t.followedBy ts).Denotes I = DenotesInOrder I (t :: ts) := by
  cases ts with
  | nil => exact (denotesInOrder_singleton t).symm
  | cons u us => exact denotes_concat (t :: u :: us)

/-! ## Terms to choose from -/

/-- Some term of two lists describes a word exactly if some term of one of them does. -/
theorem denotesSome_append {ts us : List Term} {w : List α} :
    DenotesSome I (ts ++ us) w ↔ DenotesSome I ts w ∨ DenotesSome I us w := by
  simp only [denotesSome_iff, List.mem_append, or_and_right, exists_or]

/-- The choices of a term describe what the term describes. -/
theorem denotesSome_choices (t : Term) : DenotesSome I t.choices = t.Denotes I := by
  cases t with
  | alternatives t ts => rfl
  | _ => exact funext fun w => propext (or_iff_left id)

/-- Taking every term of a list apart into its choices changes nothing about what some of the terms
describes. -/
theorem denotesSome_flatMap_choices (ts : List Term) :
    DenotesSome I (ts.flatMap choices) = DenotesSome I ts := by
  induction ts with
  | nil => rfl
  | cons t ts ih =>
    funext w
    apply propext
    rw [List.flatMap_cons, denotesSome_append, denotesSome_choices, ih]
    rfl

/-- A choice between terms describes what some of them describes. -/
theorem denotes_orElse (t : Term) (ts : List Term) :
    (t.orElse ts).Denotes I = DenotesSome I (t :: ts) := by
  rw [← denotesSome_choices, choices_orElse, denotesSome_flatMap_choices]

/-! ## Factories and operators -/

/-- Whether a construction succeeds, with a term that describes a language. -/
def Describes (I : Interpretation α) (made : Except Error Term) (L : Language α) : Prop :=
  ∃ t, made = .ok t ∧ t.Denotes I = L

/-- The words of a language as often as bounds allow. -/
def Repeated (min : Nat) (max : Option Nat) (L : Language α) : Language α :=
  fun w => ∃ n, Allows min max n ∧ L.power n w

/-- Terms in order are repeated as a whole, within bounds that leave a count. -/
theorem describes_repetitionOf {min : Nat} {max : Option Nat} (h : ∀ most ∈ max, min ≤ most)
    (ts : List Term) :
    Describes I (repetitionOf (.int min) (.ofBound max) (ts.map .term))
      (Repeated min max (DenotesInOrder I ts)) := by
  refine ⟨_, repetitionOf_eq_ok_iff.mpr ⟨ts, min, max, rfl, rfl, rfl, h, rfl⟩, ?_⟩
  rw [← denotes_concat]
  rfl

/-- A choice between terms is made and describes their union. -/
theorem describes_choiceOf (t : Term) (ts : List Term) :
    Describes I (choiceOf (.term t) (ts.map .term)) (DenotesSome I (t :: ts)) :=
  ⟨t.orElse ts, choiceOf_eq_ok_iff.mpr ⟨t, ts, rfl, rfl, rfl⟩, denotes_orElse t ts⟩

/-- Terms in order are made one term, which describes their concatenation. -/
theorem describes_sequenceOf (t : Term) (ts : List Term) :
    Describes I (sequenceOf (.term t) (ts.map .term)) (DenotesInOrder I (t :: ts)) :=
  ⟨t.followedBy ts, sequenceOf_eq_ok_iff.mpr ⟨t, ts, rfl, rfl, rfl⟩, denotes_followedBy t ts⟩

/-- Terms in order are made optional as a whole. -/
theorem describes_optionalOf (ts : List Term) :
    Describes I (optionalOf (ts.map .term)) fun w => w = [] ∨ DenotesInOrder I ts w := by
  refine ⟨_, optionalOf_eq_ok_iff.mpr ⟨ts, rfl, rfl⟩, ?_⟩
  rw [← denotes_concat]
  rfl

/-- All factories and operators that splice make a term of any terms, for all bounds that leave a
count, and it describes what the terms describe without splicing. So does the definition that a
builder stores for a new name. -/
theorem splicing_keeps_language (I : Interpretation α) (t : Term) (ts : List Term) :
    Describes I (Factory.sequence.apply ((t :: ts).map .term)) (DenotesInOrder I (t :: ts)) ∧
    Describes I (Factory.choice.apply ((t :: ts).map .term)) (DenotesSome I (t :: ts)) ∧
    Describes I (Factory.optional.apply ((t :: ts).map .term))
      (fun w => w = [] ∨ DenotesInOrder I (t :: ts) w) ∧
    Describes I (Factory.zeroOrMore.apply ((t :: ts).map .term))
      (Repeated 0 none (DenotesInOrder I (t :: ts))) ∧
    Describes I (Factory.oneOrMore.apply ((t :: ts).map .term))
      (Repeated 1 none (DenotesInOrder I (t :: ts))) ∧
    (∀ min : Nat, Describes I (Factory.atLeast.apply (.int min :: (t :: ts).map .term))
      (Repeated min none (DenotesInOrder I (t :: ts)))) ∧
    (∀ (min : Nat) (max : Option Nat), (∀ most ∈ max, min ≤ most) →
      Describes I (Factory.between.apply (.int min :: .ofBound max :: (t :: ts).map .term))
        (Repeated min max (DenotesInOrder I (t :: ts)))) ∧
    (∀ count : Nat, Describes I (Factory.exactly.apply (.int count :: (t :: ts).map .term))
      (Repeated count (some count) (DenotesInOrder I (t :: ts)))) ∧
    (∀ u, Describes I (Operator.followedBy.apply [.term t, .term u])
      ((t.Denotes I).product (u.Denotes I))) ∧
    (∀ u, Describes I (Operator.orElse.apply [.term t, .term u])
      fun w => t.Denotes I w ∨ u.Denotes I w) ∧
    ∀ (b : Builder) (name location : String), b.built = false → name ≠ "" →
      (∀ p ∈ b.productions, p.name ≠ name) →
      ∃ definition, b.add (.text name) (.term t) (ts.map .term) location =
          .ok { b with productions := b.productions ++ [⟨name, definition, location⟩] } ∧
        definition.Denotes I = DenotesSome I (t :: ts) := by
  have hunbounded (min : Nat) : ∀ most ∈ (none : Option Nat), min ≤ most := nofun
  refine ⟨describes_sequenceOf t ts, describes_choiceOf t ts, describes_optionalOf (t :: ts),
    describes_repetitionOf (hunbounded 0) (t :: ts),
    describes_repetitionOf (hunbounded 1) (t :: ts),
    fun min => describes_repetitionOf (hunbounded min) (t :: ts),
    fun min max h => describes_repetitionOf h (t :: ts), fun count => ?_, fun u => ?_, fun u => ?_,
    ?_⟩
  · have hcount : ∀ most ∈ some count, count ≤ most := by simp
    exact describes_repetitionOf hcount (t :: ts)
  · have htwo : DenotesInOrder I [t, u] = (t.Denotes I).product (u.Denotes I) := by
      rw [DenotesInOrder, denotesInOrder_singleton]
    rw [← htwo]
    exact describes_sequenceOf t [u]
  · have htwo : DenotesSome I [t, u] = fun w => t.Denotes I w ∨ u.Denotes I w :=
      funext fun w => by simp only [DenotesSome, or_false]
    rw [← htwo]
    exact describes_choiceOf t [u]
  · intro b name location hopen hname hfree
    obtain ⟨definition, hmade, hdenotes⟩ := describes_choiceOf (I := I) t ts
    refine ⟨definition, Builder.add_eq_ok_iff.mpr ?_, hdenotes⟩
    exact ⟨hopen, name, definition, rfl, hname, hfree, hmade, rfl⟩

/-- The reading of literals as their text; nothing else has words. -/
def literally : Interpretation Char where
  literal s _ := fun w => w = s.toList
  characterSet _ _ := fun _ => False
  nonTerminal _ := fun _ => False

/-- A sequence that no splicing has made, with the empty word and a choice in it. -/
def rawSample : Term :=
  .sequence .epsilon [.alternatives (.literal "a" (.bool true)) [.alternatives .epsilon []]]

/-- The raw sample is repeated two or three times, and is stored with a second choice. -/
theorem splicing_keeps_language_sample :
    (∀ most ∈ some 3, 2 ≤ most) ∧
      Describes literally (Factory.between.apply [.int 2, .int 3, .term rawSample, .term .epsilon])
        (Repeated 2 (some 3) (DenotesInOrder literally [rawSample, .epsilon])) ∧
      ∃ definition, (Builder.mk "x" .null [] false).add (.text "p")
          (.term rawSample) [.term .epsilon] "here" =
            .ok ⟨"x", .null, [⟨"p", definition, "here"⟩], false⟩ ∧
        definition.Denotes literally = DenotesSome literally [rawSample, .epsilon] := by
  have hbounds : ∀ most ∈ some 3, 2 ≤ most := by decide
  obtain ⟨_, _, _, _, _, _, hbetween, _, _, _, hstored⟩ :=
    splicing_keeps_language literally rawSample [.epsilon]
  refine ⟨hbounds, hbetween 2 (some 3) hbounds, ?_⟩
  exact hstored (Builder.mk "x" .null [] false) "p" "here" rfl (by decide) nofun

end Term

end FormalGrammar

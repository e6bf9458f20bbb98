import FormalGrammar.Operation
import FormalGrammar.Proofs.Exclusions

/-!
# The nodes that an operation adds

Factories and operators take over nodes of the terms they are given and add
nodes of a few forms. What they add makes sense, and a sequence or a choice that
they add has at least two terms, which are items or choices of the given terms.
All later facts about the terms that operations make are read off from this.
-/

namespace FormalGrammar

/-! ## The terms in a value -/

namespace Value

mutual

/-- The terms in a value: itself, or those in the values of a list or a record. -/
def terms : Value → List Term
  | .term t => [t]
  | .list vs => allTerms vs
  | .record fs => fieldTerms fs
  | .null | .bool _ | .int _ | .decimal _ | .text _ => []
termination_by structural v => v

/-- The terms in the values of a list. -/
def allTerms : List Value → List Term
  | [] => []
  | v :: vs => v.terms ++ allTerms vs
termination_by structural vs => vs

/-- The terms in the values of some fields. -/
def fieldTerms : List (String × Value) → List Term
  | [] => []
  | (_, v) :: fs => v.terms ++ fieldTerms fs
termination_by structural fs => fs

end

/-- The terms in a list of terms are these. -/
@[simp] theorem allTerms_map_term (ts : List Term) : allTerms (ts.map .term) = ts := by
  induction ts with
  | nil => rfl
  | cons t ts ih => rw [List.map_cons, allTerms, ih, terms, List.singleton_append]

/-- No term is in a bound. -/
@[simp] theorem terms_ofBound (max : Option Nat) : (ofBound max).terms = [] := by
  cases max <;> rfl

end Value

namespace Term

open Value (allTerms)

/-! ## Added nodes -/

/-- The forms of the nodes that factories and operators add to those of the given terms. -/
inductive Added (given : List Term) : Term → Prop
  | literal {s : String} (sensitive : Bool) : s ≠ "" → Added given (.literal s (.bool sensitive))
  | characterSet {name : String} : name ≠ "" → Added given (.characterSet name [])
  | excluding {name : String} {old points : List Nat} : .characterSet name old ∈ given →
      points.Pairwise (· < ·) → (∀ n ∈ points, n < codePointLimit) →
        Added given (.characterSet name points)
  | nonTerminal {name : String} : name ≠ "" → Added given (.nonTerminal name)
  | sequence {t : Term} {ts : List Term} : ts ≠ [] →
      (∀ u ∈ t :: ts, ∃ v ∈ given, u ∈ v.items) → Added given (.sequence t ts)
  | alternatives {t : Term} {ts : List Term} : ts ≠ [] →
      (∀ u ∈ t :: ts, ∃ v ∈ given, u ∈ v.choices) → Added given (.alternatives t ts)
  | optional {body : Term} : Added given (.optional body)
  | repetition {body : Term} {min : Nat} {max : Option Nat} : (∀ most ∈ max, min ≤ most) →
      Added given (.repetition body min max)
  | epsilon : Added given .epsilon

/-- Whether a term has only nodes of the given terms and added ones. -/
def GrownFrom (given : List Term) (t : Term) : Prop :=
  ∀ u ∈ t.nodes, Added given u ∨ ∃ v ∈ given, u ∈ v.nodes

variable {given : List Term} {t : Term} {ts : List Term}

/-- A term whose topmost node is added grows from what its children grow from. -/
theorem GrownFrom.of_children (ht : Added given t) (h : ∀ c ∈ t.children, GrownFrom given c) :
    GrownFrom given t := by
  intro u hu
  rcases mem_nodes_iff.mp hu with rfl | ⟨c, hc, hu⟩
  · exact Or.inl ht
  · exact h c hc u hu

/-- A given term grows from what is given. -/
theorem grownFrom_of_mem (h : t ∈ given) : GrownFrom given t :=
  fun _ hu => Or.inr ⟨t, h, hu⟩

/-- An item of a term has only nodes of the term. -/
theorem mem_nodes_of_mem_items {u i : Term} (hi : i ∈ t.items) (hu : u ∈ i.nodes) :
    u ∈ t.nodes := by
  cases t with
  | sequence | epsilon => exact mem_nodes_iff.mpr (Or.inr ⟨i, hi, hu⟩)
  | _ =>
    rw [List.mem_singleton.mp hi] at hu
    exact hu

/-- A choice of a term has only nodes of the term. -/
theorem mem_nodes_of_mem_choices {u c : Term} (hc : c ∈ t.choices) (hu : u ∈ c.nodes) :
    u ∈ t.nodes := by
  cases t with
  | alternatives => exact mem_nodes_iff.mpr (Or.inr ⟨c, hc, hu⟩)
  | _ =>
    rw [List.mem_singleton.mp hc] at hu
    exact hu

/-- The concatenation of terms grows from them. -/
theorem grownFrom_concat (ts : List Term) : GrownFrom ts (concat ts) := by
  have hitem : ∀ i ∈ ts.flatMap items, ∃ v ∈ ts, i ∈ v.items := fun i => List.mem_flatMap.mp
  have hgrown : ∀ i ∈ ts.flatMap items, GrownFrom ts i := by
    intro i hi u hu
    obtain ⟨v, hv, hi⟩ := hitem i hi
    exact Or.inr ⟨v, hv, mem_nodes_of_mem_items hi hu⟩
  rw [concat]
  match hts : ts.flatMap items with
  | [] => exact .of_children .epsilon nofun
  | [i] => exact hgrown i (hts ▸ List.mem_singleton_self i)
  | i :: j :: is =>
    rw [hts] at hitem hgrown
    exact .of_children (.sequence (List.cons_ne_nil j is) hitem) hgrown

/-- A term followed by others grows from all of them. -/
theorem grownFrom_followedBy (t : Term) (ts : List Term) :
    GrownFrom (t :: ts) (t.followedBy ts) := by
  cases ts with
  | nil => exact grownFrom_of_mem List.mem_cons_self
  | cons u us => exact grownFrom_concat (t :: u :: us)

/-- A choice between terms grows from all of them. -/
theorem grownFrom_orElse (t : Term) (ts : List Term) : GrownFrom (t :: ts) (t.orElse ts) := by
  cases ts with
  | nil => exact grownFrom_of_mem List.mem_cons_self
  | cons u us =>
    have hchoice : ∀ c ∈ t.preferred :: (t.others ++ (u :: us).flatMap choices),
        ∃ v ∈ t :: u :: us, c ∈ v.choices := fun c hc =>
      List.mem_flatMap.mp (choices_orElse t (u :: us) ▸ hc)
    have hne : t.others ++ (u :: us).flatMap choices ≠ [] := by
      simp [choices]
    refine .of_children (.alternatives hne hchoice) fun c hc v hv => ?_
    obtain ⟨w, hw, hcw⟩ := hchoice c hc
    exact Or.inr ⟨w, hw, mem_nodes_of_mem_choices hcw hv⟩

/-- A term with one added node above another one grows from what the other one does. -/
theorem GrownFrom.optional (h : GrownFrom given t) : GrownFrom given (.optional t) :=
  .of_children .optional fun c hc => by rwa [List.mem_singleton.mp hc]

/-- A repetition within bounds that leave a count grows from what its body does. -/
theorem GrownFrom.repetition {min : Nat} {max : Option Nat} (hle : ∀ most ∈ max, min ≤ most)
    (h : GrownFrom given t) : GrownFrom given (.repetition t min max) :=
  .of_children (.repetition hle) fun c hc => by rwa [List.mem_singleton.mp hc]

/-! ## Operations -/

/-- What terms in order are repeated as grows from them. -/
theorem grownFrom_of_repetitionOf {min max : Value} {vs : List Value}
    (h : repetitionOf min max vs = .ok t) :
    min.terms = [] ∧ max.terms = [] ∧ GrownFrom (allTerms vs) t := by
  obtain ⟨us, least, most, rfl, rfl, rfl, hle, rfl⟩ := repetitionOf_eq_ok_iff.mp h
  rw [Value.allTerms_map_term]
  exact ⟨rfl, Value.terms_ofBound most, (grownFrom_concat us).repetition hle⟩

/-- What a factory makes grows from the terms among its arguments. -/
theorem grownFrom_of_factory {f : Factory} {vs : List Value} (h : f.apply vs = .ok t) :
    GrownFrom (allTerms vs) t := by
  unfold Factory.apply at h
  split at h
  case h_1 text | h_2 text =>
    obtain ⟨s, rfl, hs, rfl⟩ := makeLiteral_eq_ok_iff.mp h
    exact .of_children (.literal _ hs) nofun
  case h_3 name =>
    obtain ⟨s, rfl, hs, rfl⟩ := makeFullCharacterSet_eq_ok_iff.mp h
    exact .of_children (.characterSet hs) nofun
  case h_4 =>
    cases h
    exact .of_children (.characterSet (by decide)) nofun
  case h_5 name =>
    obtain ⟨s, rfl, hs, rfl⟩ := makeNonTerminal_eq_ok_iff.mp h
    exact .of_children (.nonTerminal hs) nofun
  case h_6 =>
    cases h
    exact .of_children .epsilon nofun
  case h_7 first rest =>
    obtain ⟨u, us, rfl, rfl, rfl⟩ := sequenceOf_eq_ok_iff.mp h
    rw [← List.map_cons, Value.allTerms_map_term]
    exact grownFrom_followedBy u us
  case h_8 first rest =>
    obtain ⟨u, us, rfl, rfl, rfl⟩ := choiceOf_eq_ok_iff.mp h
    rw [← List.map_cons, Value.allTerms_map_term]
    exact grownFrom_orElse u us
  case h_9 first rest =>
    obtain ⟨us, hus, rfl⟩ := optionalOf_eq_ok_iff.mp h
    rw [hus, Value.allTerms_map_term]
    exact (grownFrom_concat us).optional
  case h_10 | h_11 => exact (grownFrom_of_repetitionOf h).2.2
  case h_12 min first rest =>
    obtain ⟨hmin, _, hgrown⟩ := grownFrom_of_repetitionOf h
    rwa [Value.allTerms, hmin, List.nil_append]
  case h_13 min max first rest =>
    obtain ⟨hmin, hmax, hgrown⟩ := grownFrom_of_repetitionOf h
    rwa [Value.allTerms, Value.allTerms, hmin, hmax, List.nil_append, List.nil_append]
  case h_14 count first rest =>
    obtain ⟨hcount, _, hgrown⟩ := grownFrom_of_repetitionOf h
    rwa [Value.allTerms, hcount, List.nil_append]
  case h_15 => cases h

/-- What an operator makes grows from the terms among its arguments. -/
theorem grownFrom_of_operator {o : Operator} {vs : List Value} (h : o.apply vs = .ok t) :
    GrownFrom (allTerms vs) t := by
  unfold Operator.apply at h
  split at h
  case h_1 u v =>
    have hf : Factory.sequence.apply [.term u, v] = .ok t := h
    exact grownFrom_of_factory hf
  case h_2 u v =>
    have hf : Factory.choice.apply [.term u, v] = .ok t := h
    exact grownFrom_of_factory hf
  case h_3 u values =>
    obtain ⟨name, old, points, rfl, hp, rfl⟩ := excluding_eq_ok_iff.mp h
    obtain ⟨ha, hl⟩ := sound_of_mergeExcluded hp
    exact .of_children (.excluding List.mem_cons_self ha hl) nofun
  case h_4 first rest =>
    cases h
    intro v hv
    exact Or.inr ⟨.alternatives t rest, List.mem_cons_self,
      mem_nodes_of_mem_choices List.mem_cons_self hv⟩
  case h_5 => cases h

end Term

end FormalGrammar

import FormalGrammar.Grammar.Production
import FormalGrammar.Proofs.Descent
import Mathlib.Data.List.Induction
import Mathlib.Data.List.Nodup
import Mathlib.Logic.Function.Iterate

/-!
# The order of references

The walk with a stack takes one round for every node of a definition and then
has nothing left to do. What it has noted by then are the references that the
recursive walk meets from left to right, each where it is met first. A visitor
that descends meets them in the same order.
-/

namespace FormalGrammar

/-- Whether a list holds the names of another once each, in the order in which they first occur
there. -/
structure InFirstOrder (names met : List String) : Prop where
  nodup : names.Nodup
  mem_iff : ∀ name, name ∈ names ↔ name ∈ met
  ordered : names.Pairwise fun a b => met.idxOf a < met.idxOf b

/-- Where nothing is left to note, each name stands where it was first met: noting a further one
either changes nothing or puts it behind all others. -/
theorem inFirstOrder_firstOccurrences (met : List String) :
    InFirstOrder (firstOccurrences met) met := by
  induction met using List.reverseRecOn with
  | nil => exact ⟨List.nodup_nil, fun _ => Iff.rfl, .nil⟩
  | append_singleton met last ih =>
    have hlast : firstOccurrences (met ++ [last]) = noteName (firstOccurrences met) last :=
      List.foldl_append
    have hkept : (firstOccurrences met).Pairwise fun a b =>
        (met ++ [last]).idxOf a < (met ++ [last]).idxOf b := by
      refine ih.ordered.imp_of_mem fun ha hb hlt => ?_
      rw [List.idxOf_append_of_mem ((ih.mem_iff _).mp ha),
        List.idxOf_append_of_mem ((ih.mem_iff _).mp hb)]
      exact hlt
    rw [hlast, noteName]
    by_cases hm : last ∈ firstOccurrences met
    · rw [if_pos (List.contains_iff_mem.mpr hm)]
      refine ⟨ih.nodup, fun name => ?_, hkept⟩
      rw [List.mem_append, List.mem_singleton, ← ih.mem_iff]
      constructor
      · exact Or.inl
      · rintro (h | rfl)
        · exact h
        · exact hm
    · rw [if_neg (mt List.contains_iff_mem.mp hm)]
      have hnew : last ∉ met := mt (ih.mem_iff last).mpr hm
      refine ⟨by simpa using ih.nodup.concat hm, fun name => ?_, ?_⟩
      · rw [List.mem_append, List.mem_append, ih.mem_iff]
      · refine List.pairwise_append.mpr ⟨hkept, List.pairwise_singleton _ _, ?_⟩
        intro a ha b hb
        have hmet : a ∈ met := (ih.mem_iff a).mp ha
        rw [List.mem_singleton.mp hb, List.idxOf_append_of_mem hmet,
          List.idxOf_append_of_notMem hnew, List.idxOf_cons_self, Nat.add_zero]
        exact List.idxOf_lt_length_of_mem hmet

namespace Term

/-! ## The walk round by round -/

/-- The names noted so far and the stack of terms still to be seen. -/
abbrev Collection := List String × List Term

/-- One round of the walk: the topmost term gives way to its children, and its name is noted if it
is a reference. -/
def collectRound : Collection → Collection
  | (seen, []) => (seen, [])
  | (seen, t :: stack) =>
    (match t.reference? with
      | some name => noteName seen name
      | none => seen, t.children ++ stack)

/-- A round does not change what the walk collects in the end. -/
theorem collectReferences_collectRound (c : Collection) :
    collectReferences (collectRound c).1 (collectRound c).2 = collectReferences c.1 c.2 := by
  obtain ⟨seen, stack⟩ := c
  cases stack with
  | nil => rfl
  | cons t stack =>
    rw [collectReferences]
    rfl

/-- A round takes one node off the stack, although it may put more terms there. -/
theorem totalSize_collectRound (c : Collection) :
    totalSize (collectRound c).2 = totalSize c.2 - 1 := by
  obtain ⟨seen, stack⟩ := c
  cases stack with
  | nil => rfl
  | cons t stack =>
    simp only [collectRound, totalSize, totalSize_append, size_eq t]
    omega

/-- Nothing is left on the stack exactly if no node is. -/
theorem totalSize_eq_zero_iff {ts : List Term} : totalSize ts = 0 ↔ ts = [] := by
  cases ts with
  | nil => simp [totalSize]
  | cons t ts => simp [totalSize, size_eq t]

/-- After some rounds the walk still collects the same, and has a node less to see for each. -/
theorem iterate_collectRound (n : Nat) (c : Collection) :
    collectReferences (collectRound^[n] c).1 (collectRound^[n] c).2 = collectReferences c.1 c.2 ∧
      totalSize (collectRound^[n] c).2 = totalSize c.2 - n := by
  induction n generalizing c with
  | zero => exact ⟨rfl, rfl⟩
  | succ n ih =>
    rw [Function.iterate_succ_apply]
    refine ⟨(ih _).1.trans (collectReferences_collectRound c), ?_⟩
    rw [(ih _).2, totalSize_collectRound]
    omega

/-- The stack runs empty after as many rounds as there are nodes on it, and not before. -/
theorem iterate_collectRound_snd_eq_nil_iff {n : Nat} {c : Collection} :
    (collectRound^[n] c).2 = [] ↔ totalSize c.2 ≤ n := by
  rw [← totalSize_eq_zero_iff, (iterate_collectRound n c).2, Nat.sub_eq_zero_iff_le]

/-- Once there are no nodes left, what has been noted is what the walk collects. -/
theorem iterate_collectRound_eq {n : Nat} {c : Collection} (h : totalSize c.2 ≤ n) :
    collectRound^[n] c = (collectReferences c.1 c.2, []) := by
  have hstack := iterate_collectRound_snd_eq_nil_iff.mpr h
  have hseen := (iterate_collectRound n c).1
  rw [hstack, collectReferences] at hseen
  exact Prod.ext hseen hstack

end Term

namespace Production

/-- The references of a production are what the walk with a stack has noted when the stack runs
empty, which it does after one round for each node of the definition and not before. They are the
names of all references in the definition, each once and in the order in which the recursive walk
meets them first. A visitor that descends and handles references meets just these, in that order
and as often as they occur. -/
theorem references_in_order (p : Production) :
    (∀ n, (Term.collectRound^[n] ([], [p.definition])).2 = [] ↔ p.definition.size ≤ n) ∧
    (∀ n, p.definition.size ≤ n →
      Term.collectRound^[n] ([], [p.definition]) = (p.references, [])) ∧
    (∀ name, name ∈ p.references ↔ .nonTerminal name ∈ p.definition.nodes) ∧
    InFirstOrder p.references p.definition.occurrences ∧
    ∀ visitor : Visitor, visitor.Descends → .term .nonTerminal ∈ visitor.handled →
      ∃ sightings, Visitor.run (p.definition.visit visitor) = (sightings, none) ∧
        sightings.filterMap Sighting.reference? = p.definition.occurrences := by
  have hsize : Term.totalSize [p.definition] = p.definition.size := by
    rw [Term.totalSize, Term.totalSize, Nat.add_zero]
  refine ⟨fun n => ?_, fun n hn => ?_, fun name => Term.mem_references_iff, ?_,
    fun visitor hd hr => ⟨_, Term.run_visit hd p.definition, ?_⟩⟩
  · rw [Term.iterate_collectRound_snd_eq_nil_iff, hsize]
  · rw [Term.iterate_collectRound_eq (le_of_eq_of_le hsize hn)]
    rfl
  · rw [references, Term.references_eq]
    exact inFirstOrder_firstOccurrences _
  · rw [Visitor.filterMap_reference?_sightings hr]
    rfl

/-- A visitor that looks inside every term and sees references and nothing else but them. -/
def referenceVisitor : Visitor :=
  ⟨[.term .sequence, .term .alternatives, .term .optional, .term .repetition, .term .nonTerminal],
    some .production⟩

/-- A list of values with separators, where the names of values occur at three depths. -/
def listSample : Production :=
  ⟨"list", .sequence (.optional (.nonTerminal "value"))
    [.repetition (.sequence (.alternatives (.nonTerminal "separator") [.epsilon])
      [.alternatives (.nonTerminal "value") [.nonTerminal "list", .nonTerminal "separator"]])
      0 none], "sample:1"⟩

/-- The sample refers to values, separators and lists, in this order, and is walked through in
thirteen rounds. A visitor meets values and separators a second time. -/
theorem references_in_order_sample :
    referenceVisitor.Descends ∧ .term .nonTerminal ∈ referenceVisitor.handled ∧
      listSample.definition.size ≤ 13 ∧
      Term.collectRound^[13] ([], [listSample.definition]) =
        (["value", "separator", "list"], []) ∧
      ∃ sightings, Visitor.run (listSample.definition.visit referenceVisitor) =
          (sightings, none) ∧
        sightings.filterMap Sighting.reference? =
          ["value", "separator", "value", "list", "separator"] := by
  obtain ⟨_, hrounds, _, _, hvisit⟩ := references_in_order listSample
  have hdescends : referenceVisitor.Descends := by
    refine ⟨?_, ?_, ?_, ?_, ?_⟩ <;> decide
  have hr : .term .nonTerminal ∈ referenceVisitor.handled := by decide
  have hsize : listSample.definition.size ≤ 13 := by decide
  have hrefs : listSample.references = ["value", "separator", "list"] := by
    rw [references, Term.references_eq]
    rfl
  refine ⟨hdescends, hr, hsize, ?_, hvisit referenceVisitor hdescends hr⟩
  rw [hrounds 13 hsize, hrefs]

end Production

end FormalGrammar

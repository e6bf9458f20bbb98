import FormalGrammar.Proofs.References
import FormalGrammar.Term.Visit

/-!
# Visitors that descend

A visitor that looks inside every term with children, and fails nowhere, meets
the nodes of a term from the top and from left to right, and sees those of the
kinds that it handles. If references are among them, it reads off their names as
often as they occur.
-/

namespace FormalGrammar

/-- The name that was seen as a reference. -/
def Sighting.reference? : Sighting → Option String
  | .term (.nonTerminal name) => some name
  | .term _ | .production _ => none

/-- What is seen of a term itself is a reference exactly if the term is. -/
theorem Sighting.reference?_token (t : Term) :
    (Sighting.term t.token).reference? = t.reference? := by
  cases t <;> rfl

namespace Visitor

variable {α β : Type} {visitor : Visitor}

/-- Whether a visitor looks inside all terms that have children and fails at nothing it handles. -/
structure Descends (visitor : Visitor) : Prop where
  sequence : .term .sequence ∈ visitor.handled
  alternatives : .term .alternatives ∈ visitor.handled
  optional : .term .optional ∈ visitor.handled
  repetition : .term .repetition ∈ visitor.handled
  unfailing : ∀ kind ∈ visitor.handled, visitor.failing ≠ some kind

/-- The sightings of those terms of a list that are of a kind handled. -/
def sightings (visitor : Visitor) (ts : List Term) : List Sighting :=
  (ts.filter fun t => visitor.handled.contains (.term t.kind)).map fun t => .term t.token

/-- The sightings of two lists of terms follow one another. -/
theorem sightings_append (ts us : List Term) :
    visitor.sightings (ts ++ us) = visitor.sightings ts ++ visitor.sightings us := by
  simp only [sightings, List.filter_append, List.map_append]

/-- A term of a kind handled is seen. -/
theorem sightings_of_mem {t : Term} (h : .term t.kind ∈ visitor.handled) :
    visitor.sightings [t] = [.term t.token] := by
  simp [sightings, h]

/-- A term of another kind is not seen. -/
theorem sightings_of_notMem {t : Term} (h : .term t.kind ∉ visitor.handled) :
    visitor.sightings [t] = [] := by
  simp [sightings, h]

/-- A visitor that handles references sees exactly the names that terms refer to by themselves. -/
theorem filterMap_reference?_sightings (h : .term .nonTerminal ∈ visitor.handled)
    (ts : List Term) :
    (visitor.sightings ts).filterMap Sighting.reference? = ts.filterMap Term.reference? := by
  induction ts with
  | nil => rfl
  | cons t ts ih =>
    have hone : (visitor.sightings [t]).filterMap Sighting.reference? =
        [t].filterMap Term.reference? := by
      by_cases ht : .term t.kind ∈ visitor.handled
      · rw [sightings_of_mem ht, List.filterMap_cons, Sighting.reference?_token]
        rfl
      · -- what is not handled is no reference
        rw [sightings_of_notMem ht]
        cases t with
        | nonTerminal name => exact absurd h ht
        | _ => rfl
    rw [← List.singleton_append, sightings_append, List.filterMap_append, ih, hone,
      List.filterMap_append]

/-- Whether a visit gives a result without failing and adds just these sightings, in their order. -/
def Sees (visit : Visit α) (a : α) (sightings : List Sighting) : Prop :=
  ∀ seen, StateT.run (ExceptT.run visit) seen = (.ok a, sightings.reverse ++ seen)

/-- To return a value sees nothing. -/
theorem sees_pure (a : α) : Sees (pure a : Visit α) a [] :=
  fun _ => rfl

/-- One visit and then another see what the first sees and then what the other does. -/
theorem Sees.bind {visit : Visit α} {next : α → Visit β} {a : α} {b : β}
    {first rest : List Sighting} (h : Sees visit a first) (hnext : Sees (next a) b rest) :
    Sees (visit >>= next) b (first ++ rest) := by
  intro seen
  have hrun : StateT.run (ExceptT.run (visit >>= next)) seen =
      StateT.run (ExceptT.run (next a)) (first.reverse ++ seen) := by
    rw [ExceptT.run_bind, StateT.run_bind, h seen]
    rfl
  rw [hrun, hnext, List.reverse_append, List.append_assoc]

/-- To meet a node of a kind that is handled sees it, and the visitor looks inside. -/
theorem sees_meet (h : visitor.Descends) {kind : VisitKind} (hk : kind ∈ visitor.handled)
    (sighting : Sighting) : Sees (visitor.meet kind sighting) true [sighting] := by
  intro seen
  unfold meet
  rw [if_pos (List.contains_iff_mem.mpr hk)]
  simp only [h.unfailing kind hk, if_false]
  rfl

/-- To meet a node of another kind sees nothing. -/
theorem sees_meet_unhandled {kind : VisitKind} (hk : kind ∉ visitor.handled)
    (sighting : Sighting) : Sees (visitor.meet kind sighting) false [] := by
  intro seen
  unfold meet
  rw [if_neg (mt List.contains_iff_mem.mp hk)]
  rfl

end Visitor

namespace Term

open Visitor (Sees)

variable {visitor : Visitor}

/-- A visit to a term without children sees the term, if it is of a kind handled. -/
theorem sees_leaf (h : visitor.Descends) (t : Term) (ht : t.children = []) :
    Sees (do let _ ← visitor.meet (.term t.kind) (.term t.token)) ()
      (visitor.sightings t.nodes) := by
  rw [nodes_eq, ht, allNodes]
  by_cases hk : .term t.kind ∈ visitor.handled
  · rw [Visitor.sightings_of_mem hk]
    exact (Visitor.sees_meet h hk _).bind (Visitor.sees_pure ())
  · rw [Visitor.sightings_of_notMem hk]
    exact (Visitor.sees_meet_unhandled hk _).bind (Visitor.sees_pure ())

/-- A visit to a term of a kind handled sees the term and then what is seen inside. -/
theorem sees_composite (h : visitor.Descends) (t : Term) (hk : .term t.kind ∈ visitor.handled)
    {inside : Visitor.Visit Unit}
    (hin : Sees inside () (visitor.sightings (allNodes t.children))) :
    Sees (do if ← visitor.meet (.term t.kind) (.term t.token) then inside) ()
      (visitor.sightings t.nodes) := by
  rw [nodes_eq, ← List.singleton_append, Visitor.sightings_append, Visitor.sightings_of_mem hk]
  exact (Visitor.sees_meet h hk _).bind hin

/-- A visit to the terms of a list sees what the visits to each of them see. -/
theorem sees_visitAll {ts : List Term}
    (h : ∀ t ∈ ts, Sees (t.visit visitor) () (visitor.sightings t.nodes)) :
    Sees (visitAll visitor ts) () (visitor.sightings (allNodes ts)) := by
  induction ts with
  | nil => exact Visitor.sees_pure ()
  | cons t ts ih =>
    rw [List.forall_mem_cons] at h
    rw [allNodes, Visitor.sightings_append]
    exact h.1.bind (ih h.2)

/-- A visitor that descends sees the nodes of a term from the top and from left to right. -/
theorem sees_visit (h : visitor.Descends) (t : Term) :
    Sees (t.visit visitor) () (visitor.sightings t.nodes) := by
  induction t using Term.induct with
  | literal s flag => exact sees_leaf h (.literal s flag) rfl
  | characterSet name excluded => exact sees_leaf h (.characterSet name excluded) rfl
  | nonTerminal name => exact sees_leaf h (.nonTerminal name) rfl
  | epsilon => exact sees_leaf h .epsilon rfl
  | sequence t ts ht hts =>
    refine sees_composite h (.sequence t ts) h.sequence ?_
    rw [children, allNodes, Visitor.sightings_append]
    exact ht.bind (sees_visitAll hts)
  | alternatives t ts ht hts =>
    refine sees_composite h (.alternatives t ts) h.alternatives ?_
    rw [children, allNodes, Visitor.sightings_append]
    exact ht.bind (sees_visitAll hts)
  | optional t ht =>
    refine sees_composite h (.optional t) h.optional ?_
    rw [children, allNodes, allNodes, List.append_nil]
    exact ht
  | repetition t min max ht =>
    refine sees_composite h (.repetition t min max) h.repetition ?_
    rw [children, allNodes, allNodes, List.append_nil]
    exact ht

/-- A whole visit that descends does not fail, and what it sees are the nodes of the kinds
handled. -/
theorem run_visit (h : visitor.Descends) (t : Term) :
    Visitor.run (t.visit visitor) = (visitor.sightings t.nodes, none) := by
  simp only [Visitor.run, sees_visit h t [], List.append_nil, List.reverse_reverse]

end Term

end FormalGrammar

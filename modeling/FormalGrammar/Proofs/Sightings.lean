import FormalGrammar.Grammar.Basic

/-!
# What visitors see

Whatever kinds a visitor handles and wherever it fails, all that it sees of a
grammar are the productions and the nodes of their definitions.
-/

namespace FormalGrammar

namespace Visitor

variable {α β : Type} {P : Sighting → Prop}

/-- Whether all sightings that a visit adds to earlier ones are of some sort. -/
def AddsOnly (P : Sighting → Prop) (visit : Visit α) : Prop :=
  ∀ seen, ∀ s ∈ (StateT.run (ExceptT.run visit) seen).2, s ∈ seen ∨ P s

/-- To return a value adds nothing. -/
theorem addsOnly_pure (a : α) : AddsOnly P (pure a : Visit α) :=
  fun _ _ hs => Or.inl hs

/-- What one visit and then another add is of a sort if both are. -/
theorem AddsOnly.bind {visit : Visit α} {next : α → Visit β} (h : AddsOnly P visit)
    (hnext : ∀ a, AddsOnly P (next a)) : AddsOnly P (visit >>= next) := by
  intro seen s hs
  rcases hv : StateT.run (ExceptT.run visit) seen with ⟨outcome, middle⟩
  have hmiddle : ∀ s ∈ middle, s ∈ seen ∨ P s := by
    intro s hs
    refine h seen s ?_
    rw [hv]
    exact hs
  -- after a failure the second visit does not take place
  cases outcome with
  | error failure =>
    have he : StateT.run (ExceptT.run (visit >>= next)) seen = (.error failure, middle) := by
      rw [ExceptT.run_bind, StateT.run_bind, hv]
      rfl
    rw [he] at hs
    exact hmiddle s hs
  | ok a =>
    have he : StateT.run (ExceptT.run (visit >>= next)) seen =
        StateT.run (ExceptT.run (next a)) middle := by
      rw [ExceptT.run_bind, StateT.run_bind, hv]
      rfl
    rw [he] at hs
    rcases hnext a middle s hs with hm | hp
    · exact hmiddle s hm
    · exact Or.inr hp

/-- To meet a node adds at most the sighting of this node. -/
theorem addsOnly_meet (visitor : Visitor) (kind : VisitKind) {sighting : Sighting}
    (hp : P sighting) : AddsOnly P (visitor.meet kind sighting) := by
  intro seen s hs
  unfold meet at hs
  by_cases hh : visitor.handled.contains kind = true
  · by_cases hf : visitor.failing = some kind
    · rw [if_pos hh] at hs
      simp only [hf, if_true] at hs
      exact Or.inl hs
    · rw [if_pos hh] at hs
      simp only [hf, if_false] at hs
      rcases List.mem_cons.mp hs with rfl | hs
      · exact Or.inr hp
      · exact Or.inl hs
  · rw [if_neg hh] at hs
    exact Or.inl hs

/-- To look inside a node only if the visitor handles it adds what meeting it and looking inside
add. -/
theorem AddsOnly.inside {meeting : Visit Bool} {visit : Visit Unit} (hm : AddsOnly P meeting)
    (hv : AddsOnly P visit) :
    AddsOnly P (do if ← meeting then visit) := by
  refine hm.bind fun looks => ?_
  cases looks with
  | false => exact addsOnly_pure ()
  | true => exact hv

/-- The sightings of a whole visit are of the sort that it adds. -/
theorem AddsOnly.of_mem_run {visit : Visit Unit} (h : AddsOnly P visit) {s : Sighting}
    (hs : s ∈ (run visit).1) : P s := by
  unfold run at hs
  rcases hv : StateT.run (ExceptT.run visit) [] with ⟨outcome, seen⟩
  have hseen : s ∈ seen := by
    rw [hv] at hs
    cases outcome <;> exact List.mem_reverse.mp hs
  have ha := h [] s
  rw [hv] at ha
  exact (ha hseen).resolve_left List.not_mem_nil

end Visitor

open Visitor (AddsOnly)

variable {P : Sighting → Prop} {visitor : Visitor}

/-- A visit to the terms of a list adds what the visits to each of them add. -/
theorem Term.addsOnly_visitAll {ts : List Term} (h : ∀ t ∈ ts, AddsOnly P (t.visit visitor)) :
    AddsOnly P (visitAll visitor ts) := by
  induction ts with
  | nil => exact Visitor.addsOnly_pure ()
  | cons t ts ih =>
    rw [List.forall_mem_cons] at h
    exact h.1.bind fun _ => ih h.2

/-- A visit to a term adds only sightings of its nodes. -/
theorem Term.addsOnly_visit {t : Term} (h : ∀ u ∈ t.nodes, P (.term u.token)) :
    AddsOnly P (t.visit visitor) := by
  induction t using Term.induct with
  | literal | characterSet | nonTerminal | epsilon =>
    exact (Visitor.addsOnly_meet visitor _ (h _ (self_mem_nodes _))).bind fun _ =>
      Visitor.addsOnly_pure ()
  | sequence t ts ht hts | alternatives t ts ht hts =>
    refine (Visitor.addsOnly_meet visitor _ (h _ (self_mem_nodes _))).inside ?_
    refine (ht fun u hu => h u ?_).bind fun _ => addsOnly_visitAll fun c hc => ?_
    · exact mem_nodes_of_mem_children List.mem_cons_self hu
    · exact hts c hc fun u hu => h u (mem_nodes_of_mem_children (List.mem_cons_of_mem t hc) hu)
  | optional t ht | repetition t _ _ ht =>
    refine (Visitor.addsOnly_meet visitor _ (h _ (self_mem_nodes _))).inside ?_
    exact ht fun u hu => h u (mem_nodes_of_mem_children List.mem_cons_self hu)

/-- A visit to a grammar adds only sightings of its productions and of the nodes of their
definitions. -/
theorem Grammar.addsOnly_visit {g : Grammar}
    (hp : ∀ p ∈ g.productions, P (.production p.name))
    (hu : ∀ p ∈ g.productions, ∀ u ∈ p.definition.nodes, P (.term u.token)) :
    AddsOnly P (g.visit visitor) := by
  unfold visit
  generalize g.productions = productions at hp hu
  induction productions with
  | nil => exact Visitor.addsOnly_pure ()
  | cons p ps ih =>
    rw [List.forall_mem_cons] at hp hu
    have hfirst : AddsOnly P (p.visit visitor) :=
      (Visitor.addsOnly_meet visitor _ hp.1).inside (Term.addsOnly_visit hu.1)
    exact hfirst.bind fun _ => ih hp.2 hu.2

/-- A reference that a visitor sees somewhere in a grammar is one in the definition of a
production. -/
theorem Grammar.exists_refersTo_of_mem_run {g : Grammar} {name : String}
    (h : .term (.nonTerminal name) ∈ (Visitor.run (g.visit visitor)).1) :
    ∃ p ∈ g.productions, .nonTerminal name ∈ p.definition.nodes := by
  have ha : AddsOnly (fun s => s = .term (.nonTerminal name) →
      ∃ p ∈ g.productions, .nonTerminal name ∈ p.definition.nodes) (g.visit visitor) := by
    refine addsOnly_visit (fun p _ he => by cases he) fun p hp u hu he => ?_
    have hn : u = .nonTerminal name := by
      cases u <;> simp only [Term.token, Sighting.term.injEq, Token.nonTerminal.injEq,
        reduceCtorEq] at he
      rw [he]
    exact ⟨p, hp, hn ▸ hu⟩
  exact ha.of_mem_run h rfl

end FormalGrammar

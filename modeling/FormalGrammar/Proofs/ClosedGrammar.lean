import FormalGrammar.Proofs.Outcome
import FormalGrammar.Proofs.Sightings
import Mathlib.Logic.Relation

/-!
# Resolved grammars are closed

In a grammar that a resolution returns, every reference of a kept production is
to a kept production, so that following references never fails. Unless unused
productions were kept on purpose, the references between the productions of the
grammar itself lead to all of them.
-/

namespace FormalGrammar

open Production (InUse)

/-- Whether a grammar has a production of a name and looks one up under it. -/
def Grammar.Leads (g : Grammar) (name : String) : Prop :=
  g.has (.text name) = .ok true ∧
    ∃ p ∈ g.productions, p.name = name ∧ g.production (.text name) = .ok p

/-- Whether looking up some reference of one production finds another. -/
def Grammar.Follows (g : Grammar) (p q : Production) : Prop :=
  ∃ name, .nonTerminal name ∈ p.definition.nodes ∧ g.production (.text name) = .ok q

/-- What is looked up under a text is a production of that name. -/
theorem Grammar.production_text_eq_ok_iff {g : Grammar} {name : String} {p : Production} :
    g.production (.text name) = .ok p ↔ g.find? name = some p := by
  have hc : checkHashable [.text name] = .ok () := rfl
  simp only [production, hc, bind, Except.bind, pure, Except.pure]
  cases g.find? name <;> simp

/-- A grammar leads to every name of its productions. -/
theorem Grammar.leads_of_mem {g : Grammar} {p : Production} (hp : p ∈ g.productions) :
    g.Leads p.name := by
  have hc : checkHashable [.text p.name] = .ok () := rfl
  cases hf : g.find? p.name with
  | none =>
    have hno := List.find?_eq_none.mp hf p hp
    rw [beq_self_eq_true] at hno
    exact absurd rfl hno
  | some q =>
    refine ⟨?_, q, List.mem_of_find?_eq_some hf, ?_, production_text_eq_ok_iff.mpr hf⟩
    · simp only [has, hc, bind, Except.bind, hf, pure, Except.pure, Option.isSome_some]
    · have hn := List.find?_some hf
      exact eq_of_beq hn

/-- In a grammar with closed productions, references never lead out of it. -/
theorem Grammar.mem_of_follows {g : Grammar} {p q : Production}
    (hp : p ∈ g.productions) (h : Relation.ReflTransGen g.Follows p q) : q ∈ g.productions := by
  induction h with
  | refl => exact hp
  | tail _ hf _ =>
    obtain ⟨name, _, hq⟩ := hf
    exact List.mem_of_find?_eq_some (production_text_eq_ok_iff.mp hq)

namespace Builder

variable {b : Builder} {threshold : Level} {settings : List Setting}

/-- Following references in a grammar that was resolved or built never fails, neither for the
references of its productions nor for those that a visitor of it sees nor after any number of
steps. If the resolution succeeds without the option to keep what is unused, all productions are
in use in the grammar itself. -/
theorem grammar_closed (hb : b.Reachable) {g : Grammar}
    (hg : (b.resolve threshold settings).outcome = .ok g ∨
      (b.build threshold settings).2.outcome = .ok g) :
    (∀ p ∈ g.productions, ∀ name, .nonTerminal name ∈ p.definition.nodes → g.Leads name) ∧
    (∀ visitor name, .term (.nonTerminal name) ∈ (Visitor.run (g.visit visitor)).1 →
      g.Leads name) ∧
    (∀ p ∈ g.productions, ∀ q, Relation.ReflTransGen g.Follows p q →
      ∀ name, .nonTerminal name ∈ q.definition.nodes → g.Leads name) ∧
    ((∃ h, (b.resolve threshold (Setting.without [.ignoreUnused] settings)).outcome = .ok h) →
      ∀ p ∈ g.productions,
        InUse g.productions (.resolution .allowRootless ∈ settings) p.name) := by
  rw [build_snd, or_self, resolve_eq_ok_iff hb.wellFormed] at hg
  obtain ⟨_, hc, hv⟩ := hg
  obtain ⟨_, _, rfl⟩ := verdict_eq_ok_iff.mp hv
  have hleads : ∀ p ∈ b.kept settings, ∀ name, .nonTerminal name ∈ p.definition.nodes →
      (b.grammarOf (b.kept settings)).Leads name := by
    intro p hp name hr
    obtain ⟨q, hq, rfl⟩ := closed_kept hc p hp name hr
    exact Grammar.leads_of_mem hq
  refine ⟨hleads, ?_, ?_, ?_⟩
  · intro visitor name hs
    obtain ⟨p, hp, hr⟩ := Grammar.exists_refersTo_of_mem_run hs
    exact hleads p hp name hr
  · intro p hp q hq
    exact hleads q (Grammar.mem_of_follows hp hq)
  · rintro ⟨h, hh⟩
    obtain ⟨_, hunused, _⟩ :=
      verdict_eq_ok_iff.mp ((resolve_eq_ok_iff hb.wellFormed).mp hh).2.2
    simp only [Setting.resolution_mem_without, List.mem_singleton, reduceCtorEq, not_false_eq_true,
      and_true, not_true_eq_false, and_false, false_or] at hunused
    refine inUse_kept (hunused.imp_right fun hall p hp => ?_)
    exact (uses_without (by decide)).mp (hall p hp)

/-- A visitor that looks at references and descends through sequences and options to them. -/
def sampleVisitor : Visitor :=
  ⟨[.production, .term .sequence, .term .optional, .term .nonTerminal], none⟩

/-- What a visitor of the pruned sample sees below a sum can be looked up, and its blanks are in
use as a root of their own. -/
theorem grammar_closed_sample :
    (sample.resolve .debug pruning).outcome = .ok prunedSample ∧
      .term (.nonTerminal "sum") ∈ (Visitor.run (prunedSample.visit sampleVisitor)).1 ∧
      prunedSample.Leads "number" ∧ prunedSample.Leads "sum" ∧
      InUse prunedSample.productions (.resolution .allowRootless ∈ pruning) "blank" := by
  obtain ⟨hrefs, hseen, _, hused⟩ := grammar_closed sample_reachable (Or.inl resolve_sample)
  have hsum : .term (.nonTerminal "sum") ∈
      (Visitor.run (prunedSample.visit sampleVisitor)).1 :=
    List.mem_of_getElem? (i := 5) rfl
  have hnumber : prunedSample.Leads "number" :=
    hrefs _ List.mem_cons_self _ (List.mem_of_getElem? (i := 1) rfl)
  refine ⟨resolve_sample, hsum, hnumber, hseen _ _ hsum, ?_⟩
  exact hused ⟨prunedSample, resolve_sample⟩ _ (List.mem_of_getElem? (i := 2) rfl)

end Builder

end FormalGrammar

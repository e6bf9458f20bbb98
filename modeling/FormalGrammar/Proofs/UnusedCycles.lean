import FormalGrammar.Proofs.Outcome
import Mathlib.Dynamics.PeriodicPts.Defs
import Mathlib.Order.Preorder.Finite

/-!
# What is unused although further roots are admitted

Where further roots are admitted, whatever no other production refers to is in
use. A name can then be unused only if another unused one refers to it, and no
name in use does. There are finitely many of them, so going from each to one
that refers to it runs into a cycle of at least two names. Without such a cycle
nothing is unused; a reference of a production to itself makes none.
-/

namespace FormalGrammar

/-- A cycle of a relation, read backwards, is one of the relation the other way round. -/
theorem chain_reverse {α : Type} {r : α → α → Prop} {c : Cycle α}
    (h : c.Chain fun x y => r y x) : c.reverse.Chain r := by
  induction c using Cycle.induction_on with
  | nil => trivial
  | cons x xs _ =>
    have hx : ((x :: xs : List α) : Cycle α).reverse = (x :: xs.reverse : List α) := by
      rw [Cycle.reverse_coe, List.reverse_cons, Cycle.coe_cons_eq_coe_append]
    have hr : x :: (xs.reverse ++ [x]) = (x :: (xs ++ [x])).reverse := by simp
    rw [Cycle.chain_coe_cons] at h
    rw [hx, Cycle.chain_coe_cons, hr, List.isChain_reverse]
    exact h

open Function in
/-- Where each of finitely many things has another one before it, some of them form a cycle. -/
theorem exists_cycle {α : Type} {r : α → α → Prop} {xs : List α} (hne : xs ≠ [])
    (h : ∀ x ∈ xs, ∃ y ∈ xs, y ≠ x ∧ r y x) :
    ∃ c : Cycle α, c.Nontrivial ∧ c.Nodup ∧ c.Chain r ∧ ∀ x ∈ c, x ∈ xs := by
  obtain ⟨start, hstart⟩ := List.exists_mem_of_ne_nil xs hne
  have : Nonempty α := ⟨start⟩
  choose! before hin hother hrel using h
  have hback : Set.MapsTo before {x | x ∈ xs} {x | x ∈ xs} := hin
  -- of the infinitely many steps back from the start two end at the same place
  obtain ⟨m, n, hmn, he⟩ := Set.Finite.exists_lt_map_eq_of_forall_mem
    (fun n => hback.iterate n hstart) xs.finite_toSet
  have hlast : before^[m] start ∈ xs := hback.iterate m hstart
  have hperiodic : before^[m] start ∈ periodicPts before := by
    refine mk_mem_periodicPts (Nat.sub_pos_of_lt hmn) ?_
    rw [IsPeriodicPt, IsFixedPt, ← iterate_add_apply, Nat.sub_add_cancel hmn.le]
    exact he.symm
  refine ⟨(periodicOrbit before (before^[m] start)).reverse, ?_, ?_, ?_, ?_⟩
  · rw [Cycle.nontrivial_reverse_iff]
    exact ⟨_, _, hother _ hlast, iterate_mem_periodicOrbit hperiodic 1,
      self_mem_periodicOrbit hperiodic⟩
  · exact Cycle.nodup_reverse_iff.mpr nodup_periodicOrbit
  · refine chain_reverse ((periodicOrbit_chain' _ hperiodic).mpr fun k => ?_)
    rw [iterate_succ_apply']
    exact hrel _ (hback.iterate k hlast)
  · intro x hx
    obtain ⟨k, rfl⟩ := (mem_periodicOrbit_iff hperiodic).mp (Cycle.mem_reverse_iff.mp hx)
    exact hback.iterate k hlast

namespace Production

variable {productions : List Production} {furtherRoots : Prop} {name : String}

/-- Whether a listed production of one name refers to another name. -/
def Refers (productions : List Production) (referrer name : String) : Prop :=
  ∃ p ∈ productions, p.name = referrer ∧ p.RefersTo name

/-- Whether names form a cycle of references: there are two or more of them, none occurs twice,
each refers to the next and the last one to the first. -/
structure ReferenceCycle (productions : List Production) (c : Cycle String) : Prop where
  nontrivial : c.Nontrivial
  nodup : c.Nodup
  chain : c.Chain (Refers productions)

/-- What a name in use refers to is in use. -/
theorem InUse.of_refers {referrer : String} (hu : InUse productions furtherRoots referrer)
    (h : Refers productions referrer name) : InUse productions furtherRoots name := by
  obtain ⟨p, hp, rfl, hr⟩ := h
  exact .reference hu hp hr

/-- With further roots admitted, a production that is not in use is referred to by another one that
is not in use either. -/
theorem exists_referrer_of_not_inUse (hf : furtherRoots) {p : Production} (hp : p ∈ productions)
    (hu : ¬ InUse productions furtherRoots p.name) :
    ∃ q ∈ productions, q.name ≠ p.name ∧ q.RefersTo p.name ∧
      ¬ InUse productions furtherRoots q.name := by
  have ht : ¬ TopLevel productions p.name := fun ht => hu (.topLevel hf hp ht)
  simp only [TopLevel, not_forall] at ht
  obtain ⟨q, hq, hr, hne⟩ := ht
  exact ⟨q, hq, hne, hr, fun hq' => hu (hq'.of_refers ⟨q, hq, rfl, hr⟩)⟩

end Production

namespace Builder

open Production (Refers ReferenceCycle)

variable {b : Builder} {threshold : Level} {settings : List Setting}

/-- With further roots admitted, every unused name is one that another unused name refers to. -/
theorem exists_referrer_of_mem_unused (hf : .resolution .allowRootless ∈ settings) {name : String}
    (h : name ∈ b.unused settings) :
    ∃ other ∈ b.unused settings, other ≠ name ∧ Refers b.productions other name := by
  obtain ⟨hn, hu⟩ := mem_unused.mp h
  obtain ⟨p, hp, rfl⟩ := List.mem_map.mp hn
  obtain ⟨q, hq, hne, hr, hq'⟩ := Production.exists_referrer_of_not_inUse hf hp hu
  exact ⟨q.name, mem_unused.mpr ⟨List.mem_map_of_mem hq, hq'⟩, hne, q, hq, rfl, hr⟩

/-- A production that is not among the unused ones refers to none of them. -/
theorem not_refersTo_of_mem_unused {p : Production} (hp : p ∈ b.productions)
    (hu : p.name ∉ b.unused settings) {name : String} (h : name ∈ b.unused settings) :
    ¬ p.RefersTo name := by
  intro hr
  rw [mem_unused, not_and, Classical.not_not] at hu
  exact (mem_unused.mp h).2 (.reference (hu (List.mem_map_of_mem hp)) hp hr)

/-- With further roots admitted, unused names hold a cycle of references. -/
theorem exists_referenceCycle (hf : .resolution .allowRootless ∈ settings)
    (hne : b.unused settings ≠ []) :
    ∃ c, ReferenceCycle b.productions c ∧ ∀ name ∈ c, name ∈ b.unused settings := by
  obtain ⟨c, hnontrivial, hnodup, hchain, hmem⟩ :=
    exists_cycle hne fun _ h => exists_referrer_of_mem_unused hf h
  exact ⟨c, ⟨hnontrivial, hnodup, hchain⟩, hmem⟩

/-- With further roots admitted, a resolution that complains about unused names names a part of the
grammar on its own: each of the names is referred to by another of them, no other production refers
to any of them, and some of them form a cycle. So without a cycle of two or more names there is no
such complaint. -/
theorem unused_cyclic (hb : b.Reachable) (hf : .resolution .allowRootless ∈ settings) :
    (∀ names, (b.resolve threshold settings).outcome = .error (.resolution (.unused names)) →
      (∀ name ∈ names, ∃ other ∈ names, other ≠ name ∧ Refers b.productions other name) ∧
      (∀ p ∈ b.productions, p.name ∉ names → ∀ name ∈ names, ¬ p.RefersTo name) ∧
      ∃ c, ReferenceCycle b.productions c ∧ ∀ name ∈ c, name ∈ names) ∧
    ((∀ c, ¬ ReferenceCycle b.productions c) → ∀ names,
      (b.resolve threshold settings).outcome ≠ .error (.resolution (.unused names))) := by
  have hcycle : ∀ names,
      (b.resolve threshold settings).outcome = .error (.resolution (.unused names)) →
        names = b.unused settings ∧ names ≠ [] := by
    intro names h
    obtain ⟨_, hv⟩ := (resolve_eq_unused_iff hb.wellFormed (hashable_of_resolution_error h)).mp h
    exact (verdict_eq_unused_iff.mp hv).2.2
  refine ⟨fun names h => ?_, fun hno names h => ?_⟩
  · obtain ⟨rfl, hne⟩ := hcycle names h
    exact ⟨fun _ => exists_referrer_of_mem_unused hf,
      fun _ hp hu _ => not_refersTo_of_mem_unused hp hu, exists_referenceCycle hf hne⟩
  · obtain ⟨rfl, hne⟩ := hcycle names h
    obtain ⟨c, hc, _⟩ := exists_referenceCycle hf hne
    exact hno c hc

/-- The sample without its cycle apart. Sums still refer to themselves, and blanks are of top
level. -/
def recursiveSample : Builder :=
  ((Builder.mk "sums" (.text "") [] false).run .debug
    (sampleRequests.take 2 ++ sampleRequests.drop 4)).1

/-- The only production of it that refers to anything is that of sums. -/
theorem eq_sum_of_refers {referrer name : String}
    (h : Refers recursiveSample.productions referrer name) : referrer = "sum" := by
  have hsum : ∀ p ∈ recursiveSample.productions, p.references = [] ∨ p.name = "sum" := by
    decide +kernel
  obtain ⟨p, hp, rfl, hr⟩ := h
  rw [← ReferenceGraph.mem_references_iff] at hr
  refine (hsum p hp).resolve_left fun hn => ?_
  rw [hn] at hr
  cases hr

/-- Comments of the sample are unused as part of a cycle; without it nothing can be unused. -/
theorem unused_cyclic_sample :
    sample.Reachable ∧ .resolution .allowRootless ∈ [Setting.resolution .allowRootless] ∧
      (sample.resolve .debug [.resolution .allowRootless]).outcome =
        .error (.resolution (.unused ["comment", "note"])) ∧
      (∃ c, ReferenceCycle sample.productions c ∧ ∀ name ∈ c, name ∈ ["comment", "note"]) ∧
      recursiveSample.Reachable ∧ (∀ c, ¬ ReferenceCycle recursiveSample.productions c) ∧
      ∀ names, (recursiveSample.resolve .debug [.resolution .allowRootless]).outcome ≠
        .error (.resolution (.unused names)) := by
  have hroots : .resolution .allowRootless ∈ [Setting.resolution .allowRootless] :=
    List.mem_cons_self
  have hunused : (sample.resolve .debug [.resolution .allowRootless]).outcome =
      .error (.resolution (.unused ["comment", "note"])) := by
    cbv
  have hreachable : recursiveSample.Reachable :=
    (Reachable.start (start_eq_ok_iff.mpr ⟨"sums", rfl, by decide, rfl⟩)).run .debug _
  have hacyclic : ∀ c, ¬ ReferenceCycle recursiveSample.productions c := by
    rintro c ⟨⟨x, y, hne, hx, hy⟩, _, hchain⟩
    have hsum : c.Chain fun referrer _ => referrer = "sum" :=
      hchain.imp fun _ _ => eq_sum_of_refers
    have : IsTrans String fun referrer _ => referrer = "sum" := ⟨fun _ _ _ h _ => h⟩
    rw [Cycle.chain_iff_pairwise] at hsum
    exact hne ((hsum x hx y hy).trans (hsum y hy x hx).symm)
  obtain ⟨_, _, hcycle⟩ := (unused_cyclic sample_reachable hroots).1 _ hunused
  exact ⟨sample_reachable, hroots, hunused, hcycle, hreachable, hacyclic,
    (unused_cyclic hreachable hroots).2 hacyclic⟩

end Builder

end FormalGrammar

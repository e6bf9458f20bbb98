import FormalGrammar.Proofs.Kept
import FormalGrammar.Proofs.ProductionGraph

/-!
# Roots in order

The roots of a resolution as a list: the first production and, where further
roots are admitted, all others of top level in their order. What a resolution
keeps has the roots that there were: what is in use and no root has a different
production in use that refers to it, and so does not become one.
-/

namespace FormalGrammar.Production

variable {productions : List Production} {furtherRoots : Prop} {name : String}

open scoped Classical in
/-- The names of the roots: that of the first production followed, if further roots are admitted, by
those of all others that no different production refers to. -/
noncomputable def rootNames (furtherRoots : Prop) : List Production → List String
  | [] => []
  | first :: rest =>
    first.name ::
      if furtherRoots then (rest.map (·.name)).filter fun name => TopLevel (first :: rest) name
      else []

/-- A name in use is that of the first production, or a further root, or a different production in
use refers to it. -/
theorem InUse.root_or_referrer (h : InUse productions furtherRoots name) :
    (∃ p, productions.head? = some p ∧ p.name = name) ∨
      furtherRoots ∧ TopLevel productions name ∨
      ∃ p ∈ productions, InUse productions furtherRoots p.name ∧ p.RefersTo name ∧
        p.name ≠ name := by
  induction h with
  | first hp => exact Or.inl ⟨_, hp, rfl⟩
  | topLevel hf _ ht => exact Or.inr (Or.inl ⟨hf, ht⟩)
  | @reference p name hu hp hr ih =>
    by_cases hn : p.name = name
    -- a reference of a production to itself says nothing about why it is in use
    · rw [hn] at ih
      exact ih
    · exact Or.inr (Or.inr ⟨p, hp, hu, hr, hn⟩)

section Kept

variable {keep : Production → Bool}
  (hkeep : ∀ p ∈ productions, keep p = true ↔ InUse productions furtherRoots p.name)

include hkeep

/-- With further roots admitted, the kept productions of top level are those that were. -/
theorem topLevel_kept_iff (hf : furtherRoots) {p : Production} (hp : p ∈ productions)
    (hfirst : ∀ q, productions.head? = some q → q.name ≠ p.name) :
    keep p = true ∧ TopLevel (productions.filter keep) p.name ↔ TopLevel productions p.name := by
  constructor
  · rintro ⟨hk, ht⟩
    rcases ((hkeep p hp).mp hk).root_or_referrer with ⟨q, hq, hn⟩ | ⟨-, ht'⟩ | ⟨q, hq, hu, hr, hn⟩
    · exact absurd hn (hfirst q hq)
    · exact ht'
    · exact absurd (ht q ((mem_kept_iff hkeep).mpr ⟨hq, hu⟩) hr) hn
  · intro ht
    exact ⟨(hkeep p hp).mpr (.topLevel hf hp ht), fun q hq => ht q (List.mem_filter.mp hq).1⟩

/-- Leaving out what is not in use leaves the roots as they are. -/
theorem rootNames_kept (hn : (productions.map (·.name)).Nodup) :
    rootNames furtherRoots (productions.filter keep) = rootNames furtherRoots productions := by
  cases productions with
  | nil => rfl
  | cons first rest =>
    have hfirst : keep first = true := (hkeep first List.mem_cons_self).mpr (.first rfl)
    have hkept : (first :: rest).filter keep = first :: rest.filter keep :=
      List.filter_cons_of_pos hfirst
    have hne : ∀ p ∈ rest, first.name ≠ p.name := fun p hp he =>
      (List.nodup_cons.mp hn).1 (List.mem_map.mpr ⟨p, hp, he.symm⟩)
    rw [hkept, rootNames, rootNames, ← hkept]
    by_cases hf : furtherRoots
    · rw [if_pos hf, if_pos hf, List.filter_map, List.filter_map, List.filter_filter]
      congr 2
      refine List.filter_congr fun p hp => ?_
      have htop := topLevel_kept_iff hkeep hf (List.mem_cons_of_mem first hp) fun q hq =>
        Option.some.inj hq ▸ hne p hp
      rw [Bool.eq_iff_iff, Bool.and_eq_true, and_comm]
      simpa using htop
    · rw [if_neg hf, if_neg hf]

end Kept

end FormalGrammar.Production

namespace FormalGrammar

/-- The roots of the graph of productions are their roots, in order. -/
theorem ReferenceGraph.roots_ofProductions {productions : List Production} {furtherRoots : Bool}
    (hn : (productions.map (·.name)).Nodup) :
    (ofProductions productions).roots furtherRoots =
      Production.rootNames (furtherRoots = true) productions := by
  classical
  cases productions with
  | nil => rfl
  | cons first rest =>
    have hfirst : first.name ∉ rest.map (·.name) := (List.nodup_cons.mp hn).1
    rw [roots, names_ofProductions, List.map_cons, Production.rootNames]
    cases furtherRoots with
    | false => simp
    | true =>
      simp only [if_true]
      congr 1
      refine List.filter_congr fun name hname => ?_
      have hne : (name != first.name) = true :=
        bne_iff_ne.mpr fun he => hfirst (he ▸ hname)
      rw [hne, Bool.true_and, Bool.eq_iff_iff, not_isReferencedElsewhere_iff, decide_eq_true_iff]

/-- What a resolution keeps has the roots of what there was. -/
theorem Builder.rootNames_kept {b : Builder} (hb : b.names.Nodup) (settings : List Setting) :
    Production.rootNames (.resolution .allowRootless ∈ settings) (b.kept settings) =
      Production.rootNames (.resolution .allowRootless ∈ settings) b.productions := by
  unfold kept
  split
  · exact Production.rootNames_kept (b.decide_uses_iff settings) hb
  · rfl

end FormalGrammar

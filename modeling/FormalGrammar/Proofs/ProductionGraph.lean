import FormalGrammar.Proofs.References
import FormalGrammar.Proofs.Usage
import FormalGrammar.Proofs.Walk
import Mathlib.Data.List.Nodup

/-!
# The reference graph of productions

The graph that resolution builds says the same as the productions themselves:
nothing is missing in it if the productions are closed, its roots are the first
production and those of top level, and what the roots reach is what is in use.
-/

namespace FormalGrammar.ReferenceGraph

variable {productions : List Production} {name : String}

/-- The graph lists the names of the productions. -/
@[simp] theorem names_ofProductions (productions : List Production) :
    (ofProductions productions).names = productions.map (·.name) := by
  rw [names, ofProductions, List.map_map]
  rfl

/-- A name is listed if it is that of a production. -/
theorem mem_names_ofProductions :
    name ∈ (ofProductions productions).names ↔ ∃ p ∈ productions, p.name = name := by
  rw [names_ofProductions, List.mem_map]

/-- The references of a production are the names that it refers to. -/
@[simp] theorem mem_references_iff {p : Production} : name ∈ p.references ↔ p.RefersTo name :=
  Term.mem_references_iff

/-- What is found under a name are the references of a production of that name. -/
theorem exists_of_lookup_ofProductions {references : List String}
    (h : (ofProductions productions).lookup name = some references) :
    ∃ p ∈ productions, p.name = name ∧ p.references = references := by
  obtain ⟨before, after, he, _⟩ := List.lookup_eq_some_iff.mp h
  have hm : (name, references) ∈ ofProductions productions := by
    rw [he]
    exact List.mem_append_right before List.mem_cons_self
  obtain ⟨p, hp, hpe⟩ := List.mem_map.mp hm
  exact ⟨p, hp, congrArg Prod.fst hpe, congrArg Prod.snd hpe⟩

/-- Where names are not repeated, every production is found under its name. -/
theorem lookup_ofProductions (hn : (productions.map (·.name)).Nodup) {p : Production}
    (hp : p ∈ productions) : (ofProductions productions).lookup p.name = some p.references := by
  have hl : p.name ∈ (ofProductions productions).names := mem_names_ofProductions.mpr ⟨p, hp, rfl⟩
  obtain ⟨references, hr⟩ := mem_names_iff.mp hl
  obtain ⟨q, hq, hname, rfl⟩ := exists_of_lookup_ofProductions hr
  rw [hr, List.inj_on_of_nodup_map hn hq hp hname]

/-- The graph of closed productions is closed. -/
theorem closed_ofProductions (hc : Production.Closed productions) :
    (ofProductions productions).Closed := by
  intro name references hl r hr
  obtain ⟨p, hp, _, rfl⟩ := exists_of_lookup_ofProductions hl
  exact mem_names_ofProductions.mpr (hc p hp r (mem_references_iff.mp hr))

/-- A missing reference is one of a production to a name that no production has. -/
theorem mem_missing_ofProductions {referrer : String} :
    (referrer, name) ∈ (ofProductions productions).missing ↔
      ∃ p ∈ productions, p.name = referrer ∧ p.RefersTo name ∧
        ∀ q ∈ productions, q.name ≠ name := by
  have hn : (!(ofProductions productions).names.contains name) = true ↔
      ∀ q ∈ productions, q.name ≠ name := by
    simp
  simp only [missing, List.mem_flatMap, List.mem_map, List.mem_filter, Prod.mk.injEq]
  constructor
  · rintro ⟨⟨_, _⟩, he, r, ⟨hr, hm⟩, rfl, rfl⟩
    obtain ⟨p, hp, hpe⟩ := List.mem_map.mp he
    cases hpe
    exact ⟨p, hp, rfl, mem_references_iff.mp hr, hn.mp hm⟩
  · rintro ⟨p, hp, rfl, hr, hm⟩
    exact ⟨_, List.mem_map.mpr ⟨p, hp, rfl⟩, name, ⟨mem_references_iff.mpr hr, hn.mpr hm⟩,
      rfl, rfl⟩

/-- Nothing is missing exactly if the productions are closed. -/
theorem missing_ofProductions_eq_nil_iff :
    (ofProductions productions).missing = [] ↔ Production.Closed productions := by
  rw [List.eq_nil_iff_forall_not_mem]
  constructor
  · intro h p hp name hr
    by_contra hno
    exact h (p.name, name) (mem_missing_ofProductions.mpr
      ⟨p, hp, rfl, hr, fun q hq he => hno ⟨q, hq, he⟩⟩)
  · rintro hc ⟨referrer, name⟩ hm
    obtain ⟨p, hp, _, hr, hno⟩ := mem_missing_ofProductions.mp hm
    obtain ⟨q, hq, he⟩ := hc p hp name hr
    exact hno q hq he

/-- No other name refers to a name exactly if the name is of top level. -/
theorem not_isReferencedElsewhere_iff :
    (!(ofProductions productions).isReferencedElsewhere name) = true ↔
      Production.TopLevel productions name := by
  simp only [isReferencedElsewhere, ofProductions, List.any_map, Bool.not_eq_true',
    List.any_eq_false, Production.TopLevel]
  refine forall₂_congr fun p _ => ?_
  simp only [Function.comp, Bool.and_eq_true, bne_iff_ne, List.contains_iff_mem,
    mem_references_iff, not_and']
  exact forall_congr' fun _ => not_not

/-- The roots are the first name and, if further roots are admitted, those of top level. -/
theorem mem_roots_ofProductions {furtherRoots : Bool} :
    name ∈ (ofProductions productions).roots furtherRoots ↔
      (∃ p, productions.head? = some p ∧ p.name = name) ∨
        furtherRoots = true ∧ ∃ p ∈ productions, p.name = name ∧
          Production.TopLevel productions name := by
  cases productions with
  | nil => simp [ofProductions, roots, names]
  | cons first rest =>
    have hroots : (ofProductions (first :: rest)).roots furtherRoots =
        if furtherRoots then
          first.name :: (rest.map (·.name)).filter fun name =>
            name != first.name && !(ofProductions (first :: rest)).isReferencedElsewhere name
        else [first.name] := by
      rw [roots, names_ofProductions]
      rfl
    rw [hroots]
    cases furtherRoots with
    | false => simp [eq_comm]
    | true =>
      simp only [if_true, List.mem_cons, List.mem_filter, List.mem_map, Bool.and_eq_true,
        not_isReferencedElsewhere_iff, bne_iff_ne, List.head?_cons, Option.some.injEq, true_and]
      constructor
      · rintro (rfl | ⟨⟨p, hp, rfl⟩, _, ht⟩)
        · exact Or.inl ⟨first, rfl, rfl⟩
        · exact Or.inr ⟨p, Or.inr hp, rfl, ht⟩
      · rintro (⟨p, rfl, rfl⟩ | ⟨p, (rfl | hp), rfl, ht⟩)
        · exact Or.inl rfl
        · exact Or.inl rfl
        · by_cases hf : p.name = first.name
          · exact Or.inl hf
          · exact Or.inr ⟨⟨p, hp, rfl⟩, hf, ht⟩

/-- Every root is listed. -/
theorem listed_of_mem_roots {furtherRoots : Bool}
    (h : name ∈ (ofProductions productions).roots furtherRoots) :
    name ∈ (ofProductions productions).names := by
  rw [mem_names_ofProductions]
  rcases mem_roots_ofProductions.mp h with ⟨p, hp, he⟩ | ⟨_, p, hp, he, _⟩
  · exact ⟨p, List.mem_of_mem_head? hp, he⟩
  · exact ⟨p, hp, he⟩

/-- What the roots of the graph lead to are the names in use. -/
theorem reaches_ofProductions_iff (hn : (productions.map (·.name)).Nodup) {furtherRoots : Bool} :
    (ofProductions productions).Reaches ((ofProductions productions).roots furtherRoots) name ↔
      Production.InUse productions (furtherRoots = true) name := by
  constructor
  · intro h
    induction h with
    | root hr =>
      rcases mem_roots_ofProductions.mp hr with ⟨p, hp, rfl⟩ | ⟨hf, p, hp, rfl, ht⟩
      · exact .first hp
      · exact .topLevel hf hp ht
    | step _ hl hr ih =>
      obtain ⟨p, hp, rfl, rfl⟩ := exists_of_lookup_ofProductions hl
      exact .reference ih hp (mem_references_iff.mp hr)
  · intro h
    induction h with
    | first hp => exact .root (mem_roots_ofProductions.mpr (Or.inl ⟨_, hp, rfl⟩))
    | topLevel hf hp ht =>
      exact .root (mem_roots_ofProductions.mpr (Or.inr ⟨hf, _, hp, rfl, ht⟩))
    | reference _ hp hr ih =>
      exact .step ih (lookup_ofProductions hn hp) (mem_references_iff.mpr hr)

/-- The walk over the graph of closed productions finds the names in use. -/
theorem walk_ofProductions (hn : (productions.map (·.name)).Nodup)
    (hc : Production.Closed productions) (furtherRoots : Bool) :
    ∃ reached,
      (ofProductions productions).walk ((ofProductions productions).roots furtherRoots) =
        .ok reached ∧
      ∀ name, name ∈ reached ↔ Production.InUse productions (furtherRoots = true) name := by
  obtain ⟨reached, hw, _, hr⟩ :=
    walk_eq_ok (closed_ofProductions hc) fun _ (hm : _ ∈ roots furtherRoots _) =>
      listed_of_mem_roots hm
  exact ⟨reached, hw, fun name => (hr name).trans (reaches_ofProductions_iff hn)⟩

end FormalGrammar.ReferenceGraph

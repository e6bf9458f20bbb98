import FormalGrammar.Grammar.Production

/-!
# Productions in use

A production is in use if references lead to it from the first production or,
where further roots are admitted, from a production that no other one refers
to. This is said of a list of productions alone, without graph or walk.
Leaving out everything that is not in use closes the list under references and
changes nothing about what is in use.
-/

namespace FormalGrammar.Production

/-- Whether the definition of a production holds, at any depth, a reference to a name. -/
def RefersTo (p : Production) (name : String) : Prop := .nonTerminal name ∈ p.definition.nodes

/-- Whether all references of the listed productions are to listed productions. -/
def Closed (productions : List Production) : Prop :=
  ∀ p ∈ productions, ∀ name, p.RefersTo name → ∃ q ∈ productions, q.name = name

/-- Whether no listed production refers to a name, apart from the one of that name. -/
def TopLevel (productions : List Production) (name : String) : Prop :=
  ∀ p ∈ productions, p.RefersTo name → p.name = name

/-- The least set of names that holds the first one, all of top level if further roots are
admitted, and with every name those that its definition refers to. -/
inductive InUse (productions : List Production) (furtherRoots : Prop) : String → Prop
  | first {p : Production} :
      productions.head? = some p → InUse productions furtherRoots p.name
  | topLevel {p : Production} :
      furtherRoots → p ∈ productions → TopLevel productions p.name →
        InUse productions furtherRoots p.name
  | reference {p : Production} {name : String} :
      InUse productions furtherRoots p.name → p ∈ productions → p.RefersTo name →
        InUse productions furtherRoots name

variable {productions : List Production} {furtherRoots : Prop} {name : String}

/-- Whether further roots are admitted matters to the set of names in use only by its truth. -/
theorem inUse_congr {roots roots' : Prop} (h : roots ↔ roots') :
    InUse productions roots name ↔ InUse productions roots' name := by
  rw [propext h]

/-- Admitting further roots leaves in use all that was. -/
theorem InUse.mono {roots roots' : Prop} (h : roots → roots') {name : String}
    (hu : InUse productions roots name) : InUse productions roots' name := by
  induction hu with
  | first hp => exact .first hp
  | topLevel hr hp ht => exact .topLevel (h hr) hp ht
  | reference _ hp hr ih => exact .reference ih hp hr

/-! ## Leaving out what is not in use -/

section Kept

variable {keep : Production → Bool}
  (hkeep : ∀ p ∈ productions, keep p = true ↔ InUse productions furtherRoots p.name)

include hkeep

/-- A listed production is kept exactly if it is in use. -/
theorem mem_kept_iff {p : Production} :
    p ∈ productions.filter keep ↔ p ∈ productions ∧ InUse productions furtherRoots p.name := by
  rw [List.mem_filter]
  exact and_congr_right fun hp => hkeep p hp

/-- The first production is always kept. -/
theorem head?_kept : (productions.filter keep).head? = productions.head? := by
  cases productions with
  | nil => rfl
  | cons first rest =>
    have hf : keep first = true := (hkeep first List.mem_cons_self).mpr (.first rfl)
    rw [List.filter_cons_of_pos hf, List.head?_cons, List.head?_cons]

/-- The references of a kept production are to kept productions. -/
theorem closed_kept (hc : Closed productions) : Closed (productions.filter keep) := by
  intro p hp name hr
  obtain ⟨hp, hu⟩ := (mem_kept_iff hkeep).mp hp
  obtain ⟨q, hq, hn⟩ := hc p hp name hr
  refine ⟨q, (mem_kept_iff hkeep).mpr ⟨hq, ?_⟩, hn⟩
  rw [hn]
  exact .reference hu hp hr

/-- What is in use can be reached over kept productions alone. The roots stay roots: the first
production stays the first, and one of top level cannot gain a referrer. -/
theorem inUse_kept (h : InUse productions furtherRoots name) :
    InUse (productions.filter keep) furtherRoots name := by
  induction h with
  | first hp =>
    rw [← head?_kept hkeep] at hp
    exact .first hp
  | topLevel hf hp ht =>
    have hk := (mem_kept_iff hkeep).mpr ⟨hp, .topLevel hf hp ht⟩
    exact .topLevel hf hk fun q hq => ht q ((mem_kept_iff hkeep).mp hq).1
  | reference hu hp hr ih => exact .reference ih ((mem_kept_iff hkeep).mpr ⟨hp, hu⟩) hr

/-- After leaving out what is not in use, all that is left is in use. -/
theorem inUse_of_mem_kept {p : Production} (hp : p ∈ productions.filter keep) :
    InUse (productions.filter keep) furtherRoots p.name :=
  inUse_kept hkeep ((mem_kept_iff hkeep).mp hp).2

end Kept

end FormalGrammar.Production

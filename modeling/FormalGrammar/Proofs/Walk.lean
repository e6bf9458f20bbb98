import FormalGrammar.Grammar.ReferenceGraph

/-!
# The walk finds what the roots reach

A closed reference graph lists every name that it refers to. Over such a graph
a walk from listed roots never looks up a name in vain, expands no name twice,
and ends with exactly the names that `Reaches` says. The invariant relates the
names expanded so far and the names still queued to the whole graph.
-/

namespace FormalGrammar.ReferenceGraph

/-- Whether every reference of a graph is to a name that the graph lists. -/
def Closed (g : ReferenceGraph) : Prop :=
  ∀ name references, g.lookup name = some references → ∀ r ∈ references, r ∈ g.names

/-- The listed names are those whose look-up succeeds. -/
theorem mem_names_iff {g : ReferenceGraph} {name : String} :
    name ∈ g.names ↔ ∃ references, g.lookup name = some references := by
  rw [← Option.isSome_iff_exists, List.lookup_isSome_iff, names, List.mem_map]
  constructor
  · rintro ⟨entry, he, rfl⟩
    exact ⟨entry, he, beq_self_eq_true _⟩
  · rintro ⟨entry, he, hn⟩
    exact ⟨entry, he, (eq_of_beq hn).symm⟩

/-- Whether a graph is closed is a question about the names that it lists. -/
instance (g : ReferenceGraph) : Decidable g.Closed :=
  decidable_of_iff (∀ name ∈ g.names, ∀ r ∈ (g.lookup name).getD [], r ∈ g.names) <| by
    constructor
    · intro hall name references hl r hr
      exact hall name (mem_names_iff.mpr ⟨references, hl⟩) r (by rwa [hl])
    · intro hg name hn r hr
      obtain ⟨references, hl⟩ := mem_names_iff.mp hn
      rw [hl] at hr
      exact hg name references hl r hr

/-- Leaving out one name does not change what is found under another. -/
theorem lookup_without {g : ReferenceGraph} {name other : String} (h : other ≠ name) :
    (g.without name).lookup other = g.lookup other := by
  induction g with
  | nil => rfl
  | cons entry g ih =>
    obtain ⟨key, value⟩ := entry
    by_cases hk : key = name
    · have ho : (other == key) = false := by simpa [hk] using h
      have hw : without ((key, value) :: g) name = without g name := by simp [without, hk]
      rw [hw, ih, List.lookup_cons, ho]
    · have hw : without ((key, value) :: g) name = (key, value) :: without g name := by
        simp [without, hk]
      rw [hw, List.lookup_cons, List.lookup_cons, ih]

/-- In a closed graph listed roots lead to listed names only. -/
theorem Reaches.listed {g : ReferenceGraph} {roots : List String} (hg : g.Closed)
    (hroots : ∀ r ∈ roots, r ∈ g.names) {name : String} (h : g.Reaches roots name) :
    name ∈ g.names := by
  induction h with
  | root hr => exact hroots _ hr
  | step _ hl hr _ => exact hg _ _ hl _ hr

/-- What holds at every moment of a walk from roots over a graph. -/
structure WalkInvariant (g : ReferenceGraph) (roots : List String)
    (unexpanded : ReferenceGraph) (reached queue : List String) : Prop where
  /-- What has not been expanded can still be looked up. -/
  lookup_eq : ∀ name, name ∉ reached → unexpanded.lookup name = g.lookup name
  /-- No name has been expanded twice. -/
  nodup : reached.Nodup
  /-- Nothing has been met that the roots do not lead to. -/
  sound : ∀ name, name ∈ reached ∨ name ∈ queue → g.Reaches roots name
  /-- All roots have been met. -/
  roots_met : ∀ r ∈ roots, r ∈ reached ∨ r ∈ queue
  /-- All references of the names expanded so far have been met. -/
  references_met : ∀ name ∈ reached, ∀ references, g.lookup name = some references →
    ∀ r ∈ references, r ∈ reached ∨ r ∈ queue

namespace WalkInvariant

variable {g : ReferenceGraph} {roots : List String} {unexpanded : ReferenceGraph}
  {reached queue : List String} {name : String}

/-- A walk starts with nothing expanded and the roots queued. -/
theorem start (g : ReferenceGraph) (roots : List String) :
    WalkInvariant g roots g [] roots where
  lookup_eq _ _ := rfl
  nodup := List.nodup_nil
  sound name h := by
    rcases h with h | h
    · cases h
    · exact .root h
  roots_met _ h := Or.inr h
  references_met _ h := by cases h

/-- A queued name that has been expanded before is dropped. -/
theorem skip (h : WalkInvariant g roots unexpanded reached (name :: queue))
    (hr : name ∈ reached) : WalkInvariant g roots unexpanded reached queue := by
  have hmet {r : String} (hm : r ∈ reached ∨ r ∈ name :: queue) : r ∈ reached ∨ r ∈ queue := by
    rcases hm with hm | hm
    · exact Or.inl hm
    · rcases List.mem_cons.mp hm with rfl | hm
      · exact Or.inl hr
      · exact Or.inr hm
  exact {
    lookup_eq := h.lookup_eq
    nodup := h.nodup
    sound := fun other ho => h.sound other (ho.imp_right (List.mem_cons_of_mem name))
    roots_met := fun r hm => hmet (h.roots_met r hm)
    references_met := fun other ho references hl r hm =>
      hmet (h.references_met other ho references hl r hm) }

/-- A queued name that has not been expanded is expanded: it counts as reached, and those of its
references that have not been reached are queued. -/
theorem expand {references : List String}
    (h : WalkInvariant g roots unexpanded reached (name :: queue)) (hr : name ∉ reached)
    (hl : g.lookup name = some references) :
    WalkInvariant g roots (unexpanded.without name) (reached ++ [name])
      ((references.filter fun r => !(reached ++ [name]).contains r).reverse ++ queue) := by
  have hqueue {r : String} :
      r ∈ (references.filter fun r => !(reached ++ [name]).contains r).reverse ++ queue ↔
        (r ∈ references ∧ r ∉ reached ++ [name]) ∨ r ∈ queue := by
    simp
  have hmet {r : String} (hm : r ∈ reached ∨ r ∈ name :: queue) :
      r ∈ reached ++ [name] ∨
        r ∈ (references.filter fun r => !(reached ++ [name]).contains r).reverse ++ queue := by
    rw [List.mem_append, List.mem_singleton, hqueue]
    rcases hm with hm | hm
    · exact Or.inl (Or.inl hm)
    · rcases List.mem_cons.mp hm with rfl | hm
      · exact Or.inl (Or.inr rfl)
      · exact Or.inr (Or.inr hm)
  have hname : g.Reaches roots name := h.sound name (Or.inr List.mem_cons_self)
  refine ⟨?_, ?_, ?_, fun r hm => hmet (h.roots_met r hm), ?_⟩
  · intro other ho
    rw [List.mem_append, List.mem_singleton, not_or] at ho
    rw [lookup_without ho.2, h.lookup_eq other ho.1]
  · rw [List.nodup_append]
    refine ⟨h.nodup, List.pairwise_singleton _ name, ?_⟩
    rintro a ha b hb rfl
    rw [List.mem_singleton] at hb
    exact hr (hb ▸ ha)
  · intro other ho
    rw [List.mem_append, List.mem_singleton, hqueue] at ho
    rcases ho with (ho | rfl) | (⟨ho, _⟩ | ho)
    · exact h.sound other (Or.inl ho)
    · exact hname
    · exact .step hname hl ho
    · exact h.sound other (Or.inr (List.mem_cons_of_mem name ho))
  · intro other ho others hlo r hm
    rcases List.mem_append.mp ho with ho | ho
    · exact hmet (h.references_met other ho others hlo r hm)
    · rw [List.mem_singleton.mp ho, hl, Option.some.injEq] at hlo
      subst hlo
      by_cases hn : r ∈ reached ++ [name]
      · exact Or.inl hn
      · exact Or.inr (hqueue.mpr (Or.inl ⟨hm, hn⟩))

/-- Once the queue is empty, the expanded names are those that the roots lead to. -/
theorem mem_reached_iff (h : WalkInvariant g roots unexpanded reached []) :
    name ∈ reached ↔ g.Reaches roots name := by
  constructor
  · intro hn
    exact h.sound name (Or.inl hn)
  · intro hn
    induction hn with
    | root hr => exact (h.roots_met _ hr).resolve_right List.not_mem_nil
    | step _ hl hr ih => exact (h.references_met _ ih _ hl _ hr).resolve_right List.not_mem_nil

end WalkInvariant

/-- A walk under way over a closed graph ends with the names that its roots lead to. -/
theorem walkFrom_eq_ok {g : ReferenceGraph} {roots : List String} (hg : g.Closed)
    (hroots : ∀ r ∈ roots, r ∈ g.names) (unexpanded : ReferenceGraph)
    (reached queue : List String) (h : WalkInvariant g roots unexpanded reached queue) :
    ∃ last, walkFrom unexpanded reached queue = .ok last ∧ last.Nodup ∧
      ∀ name, name ∈ last ↔ g.Reaches roots name := by
  fun_induction walkFrom unexpanded reached queue with
  | case1 unexpanded reached => exact ⟨reached, rfl, h.nodup, fun name => h.mem_reached_iff⟩
  | case2 unexpanded reached name queue hr ih => exact ih (h.skip (List.contains_iff_mem.mp hr))
  | case3 unexpanded reached name queue hr hl =>
    -- a queued name is listed, so the look-up cannot have failed
    have hn : name ∉ reached := fun hm => hr (List.contains_iff_mem.mpr hm)
    have hlisted := (h.sound name (Or.inr List.mem_cons_self)).listed hg hroots
    obtain ⟨references, hs⟩ := mem_names_iff.mp hlisted
    rw [h.lookup_eq name hn, hs] at hl
    cases hl
  | case4 unexpanded reached name queue hr references hl _ _ ih =>
    have hn : name ∉ reached := fun hm => hr (List.contains_iff_mem.mpr hm)
    rw [h.lookup_eq name hn] at hl
    exact ih (h.expand hn hl)

/-- A walk from listed roots over a closed graph ends, without repetition, with exactly the names
that the roots lead to. -/
theorem walk_eq_ok {g : ReferenceGraph} {roots : List String} (hg : g.Closed)
    (hroots : ∀ r ∈ roots, r ∈ g.names) :
    ∃ reached, g.walk roots = .ok reached ∧ reached.Nodup ∧
      ∀ name, name ∈ reached ↔ g.Reaches roots name :=
  walkFrom_eq_ok hg hroots g [] roots (.start g roots)

end FormalGrammar.ReferenceGraph

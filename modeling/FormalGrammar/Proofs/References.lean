import FormalGrammar.Term.References

/-!
# The references of a term

The walk that collects references notes a name exactly if some node of the term
is a reference to it, however deep the node lies.
-/

namespace FormalGrammar

/-- A list holds, after a name was noted in it, that name and what it held before. -/
@[simp] theorem mem_noteName {seen : List String} {name other : String} :
    other ∈ noteName seen name ↔ other ∈ seen ∨ other = name := by
  unfold noteName
  by_cases h : seen.contains name = true
  · have hm := List.contains_iff_mem.mp h
    rw [if_pos h]
    constructor
    · exact Or.inl
    · rintro (ho | rfl)
      · exact ho
      · exact hm
  · rw [if_neg h, List.mem_append, List.mem_singleton]

/-- Noting the names of a list adds exactly these names. -/
theorem mem_foldl_noteName {names seen : List String} {name : String} :
    name ∈ names.foldl noteName seen ↔ name ∈ seen ∨ name ∈ names := by
  induction names generalizing seen with
  | nil => simp
  | cons first rest ih => rw [List.foldl_cons, ih, mem_noteName, List.mem_cons, or_assoc]

/-- What is noted first stays first. -/
theorem head?_foldl_noteName (names seen : List String) :
    (names.foldl noteName seen).head? = (seen ++ names).head? := by
  induction names generalizing seen with
  | nil => rw [List.foldl_nil, List.append_nil]
  | cons first rest ih =>
    rw [List.foldl_cons, ih, noteName]
    cases seen with
    | nil => rfl
    | cons name seen => split <;> rfl

namespace Term

/-- Only a reference has a name that it refers to by itself. -/
@[simp] theorem reference?_eq_some_iff {t : Term} {name : String} :
    t.reference? = some name ↔ t = .nonTerminal name := by
  cases t <;> simp [reference?]

/-- The names that occur in a term are those of its reference nodes. -/
@[simp] theorem mem_occurrences_iff {t : Term} {name : String} :
    name ∈ t.occurrences ↔ .nonTerminal name ∈ t.nodes := by
  simp only [occurrences, List.mem_filterMap, reference?_eq_some_iff]
  constructor
  · rintro ⟨u, hu, rfl⟩
    exact hu
  · intro h
    exact ⟨_, h, rfl⟩

/-- The names that occur in a term are its own, if it is a reference, and those in its children. -/
theorem occurrences_eq (t : Term) :
    t.occurrences = t.reference?.toList ++ t.children.flatMap occurrences := by
  rw [occurrences, nodes_eq, allNodes_eq_flatMap, List.filterMap_cons, List.filterMap_flatMap]
  cases t.reference? <;> rfl

/-- A term is no reference exactly if it is of another kind. -/
theorem reference?_eq_none_iff {t : Term} : t.reference? = none ↔ t.kind ≠ .nonTerminal := by
  cases t <;> simp [reference?, kind]

/-- No name occurs in a term exactly if none of its nodes is a reference. -/
theorem occurrences_eq_nil_iff {t : Term} :
    t.occurrences = [] ↔ ∀ u ∈ t.nodes, u.kind ≠ .nonTerminal := by
  simp only [occurrences, List.filterMap_eq_nil_iff, reference?_eq_none_iff]

/-- A name occurs first in a term exactly if no node before a reference to it is a reference. -/
theorem head?_occurrences_eq_some_iff {t : Term} {name : String} :
    t.occurrences.head? = some name ↔
      ∃ before after, t.nodes = before ++ .nonTerminal name :: after ∧
        ∀ u ∈ before, u.kind ≠ .nonTerminal := by
  rw [occurrences, List.head?_filterMap, List.findSome?_eq_some_iff]
  simp only [reference?_eq_some_iff, reference?_eq_none_iff]
  constructor
  · rintro ⟨before, _, after, hnodes, rfl, hbefore⟩
    exact ⟨before, after, hnodes, hbefore⟩
  · rintro ⟨before, after, hnodes, hbefore⟩
    exact ⟨before, _, after, hnodes, rfl, hbefore⟩

/-- The collected references are the occurrences, each noted once. -/
theorem references_eq (t : Term) : t.references = firstOccurrences t.occurrences := by
  rw [references, collectReferences_eq, allNodes, allNodes, List.append_nil]
  rfl

/-- The reference that is collected first is the one that occurs first. -/
theorem head?_references (t : Term) : t.references.head? = t.occurrences.head? := by
  rw [references_eq, firstOccurrences, head?_foldl_noteName, List.nil_append]

/-- The walk collects exactly the names of the reference nodes. -/
@[simp] theorem mem_references_iff {t : Term} {name : String} :
    name ∈ t.references ↔ .nonTerminal name ∈ t.nodes := by
  rw [references_eq, firstOccurrences, mem_foldl_noteName, mem_occurrences_iff]
  simp

end Term

end FormalGrammar

import FormalGrammar.Term.CodePoint

/-!
# Well-formed and flat terms

A term is well formed if every node of it makes sense: names and texts are not
empty, exclusions are ascending code points, and a greatest count is not below
the least. A term is flat if nothing in it is left to splice: sequences and
choices have at least two terms, none of which could be taken apart where it
stands. Both properties are those of all children and of the topmost node.
-/

namespace FormalGrammar.Term

/-- Whether the topmost node of a term makes sense. -/
def Sound : Term → Prop
  | .literal s _ => s ≠ ""
  | .characterSet name excluded =>
    name ≠ "" ∧ excluded.Pairwise (· < ·) ∧ ∀ n ∈ excluded, n < codePointLimit
  | .nonTerminal name => name ≠ ""
  | .repetition _ min (some max) => min ≤ max
  | .repetition _ _ none | .sequence .. | .alternatives .. | .optional _ | .epsilon => True

/-- Whether every node of a term makes sense. -/
def WellFormed (t : Term) : Prop := ∀ u ∈ t.nodes, u.Sound

/-- Whether nothing is left to splice at the topmost node of a term. -/
def Spliced : Term → Prop
  | .sequence t ts => ts ≠ [] ∧ ∀ u ∈ t :: ts, u.kind ≠ .sequence ∧ u.kind ≠ .epsilon
  | .alternatives t ts => ts ≠ [] ∧ ∀ u ∈ t :: ts, u.kind ≠ .alternatives
  | .literal .. | .characterSet .. | .nonTerminal _ => True
  | .optional _ | .repetition .. | .epsilon => True

/-- Whether nothing is left to splice anywhere in a term. -/
def Flat (t : Term) : Prop := ∀ u ∈ t.nodes, u.Spliced

instance (t : Term) : Decidable t.Sound := by
  unfold Sound
  split <;> infer_instance

instance (t : Term) : Decidable t.WellFormed :=
  inferInstanceAs (Decidable (∀ u ∈ t.nodes, u.Sound))

instance (t : Term) : Decidable t.Spliced := by
  unfold Spliced
  split <;> infer_instance

instance (t : Term) : Decidable t.Flat :=
  inferInstanceAs (Decidable (∀ u ∈ t.nodes, u.Spliced))

/-- What holds at all nodes of a term holds at the top and at all nodes of its children. -/
private theorem forall_nodes_iff {P : Term → Prop} {t : Term} :
    (∀ u ∈ t.nodes, P u) ↔ P t ∧ ∀ c ∈ t.children, ∀ u ∈ c.nodes, P u := by
  constructor
  · intro h
    refine ⟨h t t.self_mem_nodes, fun c hc u hu => h u ?_⟩
    exact mem_nodes_iff.2 (.inr ⟨c, hc, hu⟩)
  · rintro ⟨ht, hc⟩ u hu
    rcases mem_nodes_iff.1 hu with rfl | ⟨c, hcm, huc⟩
    · exact ht
    · exact hc c hcm u huc

/-- A term is well formed if its topmost node makes sense and its children are well formed. -/
theorem wellFormed_iff {t : Term} : t.WellFormed ↔ t.Sound ∧ ∀ c ∈ t.children, c.WellFormed :=
  forall_nodes_iff

/-- A leaf that makes sense is well formed. -/
theorem wellFormed_of_leaf {t : Term} (hs : t.Sound) (ht : t.children = []) :
    t.WellFormed :=
  wellFormed_iff.mpr ⟨hs, by simp [ht]⟩

/-- A term is flat if its topmost node is spliced and its children are flat. -/
theorem flat_iff {t : Term} : t.Flat ↔ t.Spliced ∧ ∀ c ∈ t.children, c.Flat :=
  forall_nodes_iff

end FormalGrammar.Term

import FormalGrammar.Error
import FormalGrammar.Grammar.Production

/-!
# Reference graphs

Which production refers to which, as a list of names with the names that each
refers to. A walk from roots expands every name it meets once and follows what
it refers to; `Reaches` says on its own what a walk should find.
-/

namespace FormalGrammar

/-- Names in order, each with the names that it refers to. -/
abbrev ReferenceGraph := List (String × List String)

namespace ReferenceGraph

/-- The references between productions. -/
def ofProductions (productions : List Production) : ReferenceGraph :=
  productions.map fun p => (p.name, p.references)

/-- The names that have references listed. -/
def names (g : ReferenceGraph) : List String := g.map (·.1)

/-- The references to names that are not listed, each with the name it was found at. -/
def missing (g : ReferenceGraph) : List (String × String) :=
  g.flatMap fun (name, references) =>
    (references.filter fun reference => !g.names.contains reference).map fun reference =>
      (name, reference)

/-- Whether a name other than the given one refers to it. -/
def isReferencedElsewhere (g : ReferenceGraph) (name : String) : Bool :=
  g.any fun (referrer, references) => referrer != name && references.contains name

/-- The roots: the first name and, if further roots are admitted, every other name that nothing
else refers to. -/
def roots (furtherRoots : Bool) (g : ReferenceGraph) : List String :=
  match g.names with
  | [] => []
  | first :: rest =>
    if furtherRoots then
      first :: rest.filter fun name => name != first && !g.isReferencedElsewhere name
    else [first]

/-- What a name leads to by references, starting from roots. -/
inductive Reaches (g : ReferenceGraph) (roots : List String) : String → Prop where
  | root {name : String} : name ∈ roots → Reaches g roots name
  | step {name : String} {references : List String} {reference : String} :
      Reaches g roots name → g.lookup name = some references → reference ∈ references →
        Reaches g roots reference

/-- The graph without a name. -/
def without (g : ReferenceGraph) (name : String) : ReferenceGraph :=
  g.filter fun entry => entry.1 != name

/-- A graph loses an entry with a name that it lists. -/
theorem length_without_lt {g : ReferenceGraph} {name : String} {references : List String}
    (h : g.lookup name = some references) : (g.without name).length < g.length := by
  induction g with
  | nil => cases h
  | cons entry g ih =>
    obtain ⟨key, value⟩ := entry
    by_cases hk : name = key
    · have hle := List.length_filter_le (fun entry : String × List String => entry.1 != name) g
      simp only [without, hk, bne_self_eq_false, Bool.false_eq_true, not_false_eq_true,
        List.filter_cons_of_neg, List.length_cons]
      rw [hk] at hle
      omega
    · have hb : (name == key) = false := beq_eq_false_iff_ne.2 hk
      rw [List.lookup_cons, hb] at h
      have hlt := ih h
      have hne : (key != name) = true := bne_iff_ne.2 (Ne.symm hk)
      simp only [without, List.filter_cons, hne, if_true, List.length_cons] at hlt ⊢
      omega

/-- Walk on from a queue of names, where `unexpanded` is the part of the graph that has not been
expanded yet and `reached` the names that have, in the order of their expansion. The last reference
of the name expanded last comes next. -/
def walkFrom (unexpanded : ReferenceGraph) (reached : List String) :
    List String → Except Error (List String)
  | [] => .ok reached
  | name :: queue =>
    if reached.contains name then walkFrom unexpanded reached queue
    else
      match h : unexpanded.lookup name with
      | none => .error (.unknownProduction (.text name))
      | some references =>
        have := length_without_lt h
        let reached := reached ++ [name]
        walkFrom (unexpanded.without name) reached
          ((references.filter fun reference => !reached.contains reference).reverse ++ queue)
termination_by queue => (unexpanded.length, queue.length)

/-- The names that roots lead to, in the order of their expansion. -/
def walk (g : ReferenceGraph) (roots : List String) : Except Error (List String) :=
  walkFrom g [] roots

end ReferenceGraph

end FormalGrammar

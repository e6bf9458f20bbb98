import FormalGrammar.Expression
import FormalGrammar.Proofs.Construction

/-!
# Bracketings

Terms in a row can be handed to one call of a factory, or they can be put into
brackets first: calls of the factory on some of them, nested to any depth, and
uses of an operator between two. If terms may be joined in groups before the
groups are, every bracketing makes what the one call makes.
-/

namespace FormalGrammar

/-- Brackets around terms in a row: a group for a call of a factory, which is never empty, and a
pair for the use of an operator. -/
inductive Bracketing where
  | term (t : Term)
  | group (first : Bracketing) (rest : List Bracketing)
  | pair (left right : Bracketing)

namespace Bracketing

/-- Induction over bracketings, with one hypothesis for all further members of a group. -/
theorem induct {P : Bracketing → Prop} (term : ∀ t, P (.term t))
    (group : ∀ b bs, P b → (∀ c ∈ bs, P c) → P (.group b bs))
    (pair : ∀ l r, P l → P r → P (.pair l r)) : ∀ b, P b
  | .term t => term t
  | .group b bs => group b bs (induct term group pair b) fun c _ => induct term group pair c
  | .pair l r => pair l r (induct term group pair l) (induct term group pair r)

/-- The leftmost term. -/
def first : Bracketing → Term
  | .term t => t
  | .group b _ => b.first
  | .pair l _ => l.first
termination_by structural b => b

mutual

/-- The terms after the leftmost one, from left to right. -/
def rest : Bracketing → List Term
  | .term _ => []
  | .group b bs => b.rest ++ allTerms bs
  | .pair l r => l.rest ++ r.first :: r.rest
termination_by structural b => b

/-- The terms of all bracketings of a list. -/
def allTerms : List Bracketing → List Term
  | [] => []
  | b :: bs => b.first :: (b.rest ++ allTerms bs)
termination_by structural bs => bs

end

/-- The terms without the brackets, from left to right. -/
def terms (b : Bracketing) : List Term := b.first :: b.rest

/-- The terms of a list of bracketings are those of each of them in order. -/
theorem allTerms_eq_flatMap (bs : List Bracketing) : allTerms bs = bs.flatMap terms := by
  induction bs with
  | nil => rfl
  | cons b bs ih =>
    rw [allTerms, ih, List.flatMap_cons]
    rfl

mutual

/-- The expression that calls a factory for each group and uses an operator for each pair. -/
def expression (factory : Factory) (operator : Operator) : Bracketing → Expression
  | .term t => .value (.term t)
  | .group b bs =>
    .call (.factory factory) (b.expression factory operator :: expressions factory operator bs)
  | .pair l r =>
    .call (.operator operator) [l.expression factory operator, r.expression factory operator]
termination_by structural b => b

/-- The expressions for all bracketings of a list. -/
def expressions (factory : Factory) (operator : Operator) : List Bracketing → List Expression
  | [] => []
  | b :: bs => b.expression factory operator :: expressions factory operator bs
termination_by structural bs => bs

end

/-- Whether a factory joins any terms, of which there is at least one, and an operator joins two
in the same way. -/
structure Joins (factory : Factory) (operator : Operator) (join : Term → List Term → Term) :
    Prop where
  alone : ∀ t, join t [] = t
  factory : ∀ t ts, factory.apply ((t :: ts).map .term) = .ok (join t ts)
  operator : ∀ t u, operator.apply [.term t, .term u] = .ok (join t [u])

/-- Whether terms of some sort can be joined in groups before the groups are joined. A group is a
first term with others. -/
def Regroups (P : Term → Prop) (join : Term → List Term → Term) : Prop :=
  ∀ (t : Term) (ts : List Term) (groups : List (Term × List Term)),
    (∀ u ∈ (t :: ts) ++ groups.flatMap fun g => g.1 :: g.2, P u) →
      join (join t ts) (groups.map fun g => join g.1 g.2) =
        join t (ts ++ groups.flatMap fun g => g.1 :: g.2)

variable {factory : Factory} {operator : Operator} {join : Term → List Term → Term}
  {P : Term → Prop} {scope : String → Option Value} {content : Option Value}

/-- The values of a list of bracketings are evaluated one by one. -/
theorem evalAllWith_expressions {value : Bracketing → Term} {bs : List Bracketing}
    (h : ∀ b ∈ bs, (b.expression factory operator).evalWith scope content = .ok (.term (value b))) :
    Expression.evalAllWith scope content (expressions factory operator bs) =
      .ok ((bs.map value).map .term) := by
  induction bs with
  | nil => rfl
  | cons b bs ih =>
    rw [List.forall_mem_cons] at h
    rw [expressions, Expression.evalAllWith, h.1, ih h.2]
    rfl

/-- Every bracketing of terms that can be joined in groups makes what joining all of them at once
makes: in each group the members have been made by then, and joining them is joining their terms. -/
theorem evalWith_expression (hj : Joins factory operator join) (hr : Regroups P join)
    (b : Bracketing) (hb : ∀ t ∈ b.terms, P t) :
    (b.expression factory operator).evalWith scope content =
      .ok (.term (join b.first b.rest)) := by
  induction b using induct with
  | term t =>
    rw [first, rest, hj.alone]
    rfl
  | group b bs ihb ihbs =>
    have hterms : (group b bs).terms = b.terms ++ bs.flatMap terms := by
      rw [terms, first, rest, allTerms_eq_flatMap]
      rfl
    rw [hterms, List.forall_mem_append] at hb
    have hmembers := evalAllWith_expressions fun c hc =>
      ihbs c hc fun t ht => hb.2 t (List.mem_flatMap.mpr ⟨c, hc, ht⟩)
    have hgroups := hr b.first b.rest (bs.map fun c => (c.first, c.rest))
    rw [List.map_map, List.flatMap_map] at hgroups
    have hjoined : join (join b.first b.rest) (bs.map fun c => join c.first c.rest) =
        join b.first (b.rest ++ bs.flatMap terms) :=
      hgroups (List.forall_mem_append.mpr hb)
    have hmade := hj.factory (join b.first b.rest) (bs.map fun c => join c.first c.rest)
    rw [hjoined, List.map_cons] at hmade
    rw [expression, Expression.evalWith, Expression.evalAllWith, ihb hb.1, hmembers, first, rest,
      allTerms_eq_flatMap]
    exact bind_eq_ok_iff.mpr ⟨_, rfl, bind_eq_ok_iff.mpr ⟨_, hmade, rfl⟩⟩
  | pair l r ihl ihr =>
    have hterms : (pair l r).terms = l.terms ++ r.terms := rfl
    rw [hterms, List.forall_mem_append] at hb
    have hjoined : join (join l.first l.rest) [join r.first r.rest] =
        join l.first (l.rest ++ r.terms) := by
      have hgroups := hr l.first l.rest [(r.first, r.rest)]
      rw [List.flatMap_singleton] at hgroups
      exact hgroups (List.forall_mem_append.mpr hb)
    have hmade := hj.operator (join l.first l.rest) (join r.first r.rest)
    rw [hjoined] at hmade
    rw [expression, Expression.evalWith, Expression.evalAllWith, Expression.evalAllWith,
      Expression.evalAllWith, ihl hb.1, ihr hb.2]
    exact bind_eq_ok_iff.mpr ⟨_, rfl, bind_eq_ok_iff.mpr ⟨_, hmade, rfl⟩⟩

end Bracketing

end FormalGrammar

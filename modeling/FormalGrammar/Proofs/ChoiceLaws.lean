import FormalGrammar.Grammar.Rule
import FormalGrammar.Proofs.Bracketing
import FormalGrammar.Proofs.Requests
import Mathlib.Data.List.Basic

/-!
# Choices of choices

Any terms are made into one choice no matter which of them are made into choices
before, because each term adds its choices and what is made of several has just
theirs. Nothing is asked of the terms. A choice between one term is spliced like
any other, a choice below a choice stays what it is, and the empty word and
repeated terms are choices like all others.
-/

namespace FormalGrammar

open Bracketing (allTerms expressions)

/-- What an expression for a group of bracketings makes, a production gets as its definition if the
members of the group are its terms. -/
theorem Builder.addRule_of_eval {owner : Builder} {name location : String} {b : Bracketing}
    {bs : List Bracketing} {t : Term} (hopen : owner.built = false) (hname : name ≠ "")
    (hfree : name ∉ owner.names)
    (h : ((Bracketing.group b bs).expression .choice .orElse).eval (fun _ => none) =
      .ok (.term t)) :
    owner.addRule ⟨.text name, expressions .choice .orElse (b :: bs), location⟩ =
      .ok { owner with productions := owner.productions ++ [⟨name, t, location⟩] } := by
  obtain ⟨values, hvalues, hcall⟩ := bind_eq_ok_iff.mp h
  obtain ⟨made, hmade, heq⟩ := bind_eq_ok_iff.mp hcall
  cases heq
  cases values with
  | nil => cases hmade
  | cons first rest =>
    refine bind_eq_ok_iff.mpr ⟨first :: rest, hvalues, add_eq_ok_iff.mpr ⟨hopen, ?_⟩⟩
    exact ⟨name, t, rfl, hname, not_mem_names_iff.mp hfree, hmade, rfl⟩

namespace Term

/-- Whether a term is the choice between what terms have to choose from: the children of a term
that is a choice, and any other term as it is. They stand in the order of the terms, each as often
as it occurs, and the preferred one is that of the first term. -/
structure IsChoiceBetween (t first : Term) (rest : List Term) : Prop where
  kind : t.kind = .alternatives
  children : t.children =
    (first :: rest).flatMap fun u => if u.kind = .alternatives then u.children else [u]
  preferred : t.preferred = if first.kind = .alternatives then first.preferred else first

variable {t u : Term} {ts us : List Term}

/-- What a term adds to a choice are its children if it is a choice, and itself otherwise. -/
theorem choices_eq (t : Term) :
    t.choices = if t.kind = .alternatives then t.children else [t] := by
  cases t <;> rfl

/-- A choice that is made of two terms or more is a choice between their choices. -/
theorem exists_orElse (hts : ts ≠ []) :
    ∃ first rest, t.orElse ts = .alternatives first rest ∧
      first :: rest = (t :: ts).flatMap choices := by
  cases ts with
  | nil => exact absurd rfl hts
  | cons u us => exact ⟨_, _, rfl, choices_orElse t (u :: us)⟩

/-- Terms with the same choices are made into the same choice, if there are two terms or more. -/
theorem orElse_congr (hts : ts ≠ []) (hus : us ≠ [])
    (h : (t :: ts).flatMap choices = (u :: us).flatMap choices) : t.orElse ts = u.orElse us := by
  obtain ⟨first, rest, ht, hfirst⟩ := exists_orElse (t := t) hts
  obtain ⟨first', rest', hu, hfirst'⟩ := exists_orElse (t := u) hus
  obtain ⟨rfl, rfl⟩ := List.cons.inj (hfirst.trans (h.trans hfirst'.symm))
  rw [ht, hu]

/-- Any terms can be made into choices in groups first. -/
theorem regroups_orElse : Bracketing.Regroups (fun _ => True) orElse := by
  intro t ts groups _
  cases groups with
  | nil => simp only [List.map_nil, List.flatMap_nil, List.append_nil, orElse]
  | cons g gs =>
    have hmade : ((g :: gs).map fun g => g.1.orElse g.2).flatMap choices =
        ((g :: gs).flatMap fun g => g.1 :: g.2).flatMap choices := by
      rw [List.flatMap_map, List.flatMap_assoc]
      exact List.flatMap_congr fun g _ => choices_orElse g.1 g.2
    refine orElse_congr (by simp) (by simp) ?_
    calc (t.orElse ts :: (g :: gs).map fun g => g.1.orElse g.2).flatMap choices
        = (t :: ts).flatMap choices ++
            ((g :: gs).flatMap fun g => g.1 :: g.2).flatMap choices := by
          rw [List.flatMap_cons, choices_orElse, hmade]
      _ = (t :: (ts ++ (g :: gs).flatMap fun g => g.1 :: g.2)).flatMap choices := by
          rw [← List.flatMap_append, List.cons_append]

/-- The factory for choices and the operator for them join terms in the same way. -/
theorem joins_orElse : Bracketing.Joins .choice .orElse orElse where
  alone _ := rfl
  factory t ts := choiceOf_eq_ok_iff.mpr ⟨t, ts, rfl, rfl, rfl⟩
  operator t u := choiceOf_eq_ok_iff.mpr ⟨t, [u], rfl, rfl, rfl⟩

/-- What two terms or more are made into is the choice between what they have to choose from. -/
theorem isChoiceBetween_orElse (hts : ts ≠ []) : (t.orElse ts).IsChoiceBetween t ts := by
  obtain ⟨first, rest, ht, hfirst⟩ := exists_orElse (t := t) hts
  have hpreferred : first = t.preferred := (List.cons.inj hfirst).1
  rw [ht]
  refine ⟨rfl, ?_, ?_⟩
  · rw [List.flatMap_congr fun u _ => choices_eq u] at hfirst
    exact hfirst
  · rw [preferred, hpreferred]
    cases t <;> rfl

/-- Choice is associative on any terms. With two terms or more, any bracketing of them, with calls
of the factory nested to any depth and the operator between any two, makes the same choice as one
call of the factory for all of them, and so does a production to which bracketings are given. It is
the choice between what the terms have to choose from. -/
theorem choice_associative :
    (∀ (scope : String → Option Value) (b : Bracketing), 2 ≤ b.terms.length →
      ∃ t, (b.expression .choice .orElse).eval scope = .ok (.term t) ∧
        Factory.choice.apply (b.terms.map .term) = .ok t ∧ t.IsChoiceBetween b.first b.rest) ∧
    ∀ (owner : Builder) (name location : String) (b : Bracketing) (bs : List Bracketing),
      owner.built = false → name ≠ "" → name ∉ owner.names → 2 ≤ (allTerms (b :: bs)).length →
        ∃ t, owner.addRule ⟨.text name, expressions .choice .orElse (b :: bs), location⟩ =
            .ok { owner with productions := owner.productions ++ [⟨name, t, location⟩] } ∧
          Factory.choice.apply ((allTerms (b :: bs)).map .term) = .ok t ∧
          t.IsChoiceBetween b.first (b.rest ++ allTerms bs) := by
  have hbrackets (scope : String → Option Value) (b : Bracketing) (hb : 2 ≤ b.terms.length) :
      ∃ t, (b.expression .choice .orElse).eval scope = .ok (.term t) ∧
        Factory.choice.apply (b.terms.map .term) = .ok t ∧ t.IsChoiceBetween b.first b.rest := by
    have hrest : b.rest ≠ [] := by
      intro hn
      rw [Bracketing.terms, hn] at hb
      simp at hb
    exact ⟨b.first.orElse b.rest,
      b.evalWith_expression joins_orElse regroups_orElse fun _ _ => trivial,
      joins_orElse.factory b.first b.rest, isChoiceBetween_orElse hrest⟩
  refine ⟨hbrackets, fun owner name location b bs hopen hname hfree hterms => ?_⟩
  obtain ⟨t, hvalue, hcall, hchoice⟩ := hbrackets (fun _ => none) (.group b bs) hterms
  exact ⟨t, Builder.addRule_of_eval hopen hname hfree hvalue, hcall, hchoice⟩

/-- A choice between one term, which is a choice itself, alone in a group, and then the empty word
and a repeated choice in brackets. -/
def nestedSample : Bracketing :=
  .group (.group (.term (.alternatives (.alternatives (.nonTerminal "sum") [.epsilon]) [])) [])
    [.pair (.term .epsilon) (.group (.term (.nonTerminal "sum"))
      [.term (.alternatives (.nonTerminal "sum") [.literal "0" (.bool true)])])]

/-- The sample makes one choice between five terms, the first of which is still a choice itself, and
a production with the sample and a digit as its terms chooses between six. -/
theorem choice_associative_sample :
    2 ≤ nestedSample.terms.length ∧
      ((nestedSample.expression .choice .orElse).eval fun _ => none) =
        .ok (.term (.alternatives (.alternatives (.nonTerminal "sum") [.epsilon])
          [.epsilon, .nonTerminal "sum", .nonTerminal "sum", .literal "0" (.bool true)])) ∧
      (Builder.mk "sums" (.text "") [] false).addRule
          ⟨.text "sum", expressions .choice .orElse [nestedSample, .term (.nonTerminal "digit")],
            "sample:1"⟩ =
        .ok ⟨"sums", .text "", [⟨"sum", .alternatives
          (.alternatives (.nonTerminal "sum") [.epsilon])
          [.epsilon, .nonTerminal "sum", .nonTerminal "sum", .literal "0" (.bool true),
            .nonTerminal "digit"], "sample:1"⟩], false⟩ := by
  obtain ⟨hbrackets, hproduction⟩ := choice_associative
  have hterms : 2 ≤ nestedSample.terms.length := by decide
  obtain ⟨t, hvalue, hcall, _⟩ := hbrackets (fun _ => none) nestedSample hterms
  obtain ⟨u, hadded, hboth, _⟩ := hproduction ⟨"sums", .text "", [], false⟩ "sum" "sample:1"
    nestedSample [.term (.nonTerminal "digit")] rfl (by decide) (by decide) (by decide)
  cases hcall
  cases hboth
  exact ⟨hterms, hvalue, hadded⟩

end Term

end FormalGrammar

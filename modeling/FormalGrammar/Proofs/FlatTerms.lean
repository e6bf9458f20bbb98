import FormalGrammar.Proofs.Evaluation
import Mathlib.Data.List.Basic

/-!
# What factories and operators can make

The terms that factories and operators make, applied to one another to any
depth, are exactly the well-formed flat ones whose literals have truth values as
flags. They are flat because splicing goes as deep as anything is left to splice
in the terms it is given; and every flat term is made again by its own factory
from its children.
-/

namespace FormalGrammar

open Value (allTerms)

/-- Whether an operation splices what it is given, or has no terms to splice: a factory, or an
operator apart from the look at a preferred choice. -/
def Operation.Splices : Operation → Prop
  | .factory _ => True
  | .constructor _ => False
  | .operator o => o ≠ .preferred

namespace Value

/-- Whether no terms are in a value. -/
def Raw (v : Value) : Prop := v.terms = []

/-- Whether a value is that of an expression of factories and operators on raw values. -/
def Obtainable (v : Value) : Prop :=
  ∃ e : Expression, e.Within Operation.Splices Raw ∧ e.eval (fun _ => none) = .ok v

end Value

namespace Term

/-- Whether factories and operators can make a term. -/
def Obtainable (t : Term) : Prop := (Value.term t).Obtainable

/-- Whether the flags of all literals in a term are truth values. -/
def Flagged (t : Term) : Prop :=
  ∀ s flag, .literal s flag ∈ t.nodes → ∃ sensitive : Bool, flag = .bool sensitive

/-- Whether a term is well formed and flat, with truth values as flags. -/
structure Regular (t : Term) : Prop where
  wellFormed : t.WellFormed
  flat : t.Flat
  flagged : t.Flagged

/-- A composite term made again by its factory from its own children. A leaf is left as it is. -/
def rebuilt : Term → Except Error Term
  | .sequence t ts => Factory.sequence.apply ((t :: ts).map .term)
  | .alternatives t ts => Factory.choice.apply ((t :: ts).map .term)
  | .optional t => Factory.optional.apply [.term t]
  | .repetition t min max => Factory.between.apply [.int min, .ofBound max, .term t]
  | t => .ok t

variable {given : List Term} {t u : Term}

/-- A node of a regular term is regular. -/
theorem Regular.of_mem_nodes (h : t.Regular) (hu : u ∈ t.nodes) : u.Regular where
  wellFormed v hv := h.wellFormed v (mem_nodes_trans hv hu)
  flat v hv := h.flat v (mem_nodes_trans hv hu)
  flagged s flag hl := h.flagged s flag (mem_nodes_trans hl hu)

/-- A child of a regular term is regular. -/
theorem Regular.of_mem_children (h : t.Regular) (hu : u ∈ t.children) : u.Regular :=
  h.of_mem_nodes (mem_nodes_of_mem_children hu u.self_mem_nodes)

/-! ## Made terms are flat -/

/-- Whether no term directly inside a sequence is left to splice into it. Nothing is asked of terms
of another kind. -/
def Shallow (t : Term) : Prop :=
  t.kind = .sequence → ∀ u ∈ t.children, u.kind ≠ .sequence ∧ u.kind ≠ .epsilon

instance (t : Term) : Decidable t.Shallow :=
  inferInstanceAs (Decidable (t.kind = .sequence → ∀ u ∈ t.children, _))

/-- A spliced term is shallow. -/
theorem Spliced.shallow (h : t.Spliced) : t.Shallow := by
  intro hk
  cases t with
  | sequence u us => exact h.2
  | _ => cases hk

/-- An item of a shallow term is neither a sequence nor the empty word. -/
theorem Shallow.kind_of_mem_items {i : Term} (ht : t.Shallow) (hi : i ∈ t.items) :
    i.kind ≠ .sequence ∧ i.kind ≠ .epsilon := by
  cases t with
  | sequence u us => exact ht rfl i hi
  | epsilon => cases hi
  | _ =>
    rw [List.mem_singleton.mp hi]
    simp [kind]

/-- A choice of a spliced term is no choice between terms itself. -/
theorem kind_of_mem_choices {c : Term} (ht : t.Spliced) (hc : c ∈ t.choices) :
    c.kind ≠ .alternatives := by
  cases t with
  | alternatives u us => exact ht.2 c hc
  | _ =>
    rw [List.mem_singleton.mp hc]
    simp [kind, preferred]

/-- What grows from flat terms is flat. -/
theorem GrownFrom.flat (h : GrownFrom given t) (hg : ∀ u ∈ given, u.Flat) : t.Flat := by
  have hspliced : ∀ v ∈ given, v.Spliced := fun v hv => (flat_iff.mp (hg v hv)).1
  intro u hu
  rcases h u hu with ha | ⟨v, hv, hu⟩
  · cases ha with
    | sequence hne hitems =>
      refine ⟨hne, fun i hi => ?_⟩
      obtain ⟨v, hv, hi⟩ := hitems i hi
      exact (hspliced v hv).shallow.kind_of_mem_items hi
    | alternatives hne hchoices =>
      refine ⟨hne, fun c hc => ?_⟩
      obtain ⟨v, hv, hc⟩ := hchoices c hc
      exact kind_of_mem_choices (hspliced v hv) hc
    | _ => trivial
  · exact hg v hv u hu

/-- What grows from terms with truth values as flags has such flags only. -/
theorem GrownFrom.flagged (h : GrownFrom given t) (hg : ∀ u ∈ given, u.Flagged) : t.Flagged := by
  intro s flag hl
  rcases h _ hl with ha | ⟨v, hv, hl⟩
  · cases ha with
    | literal sensitive _ => exact ⟨sensitive, rfl⟩
  · exact hg v hv s flag hl

/-- What grows from regular terms is regular. -/
theorem GrownFrom.regular (h : GrownFrom given t) (hg : ∀ u ∈ given, u.Regular) : t.Regular where
  wellFormed := h.wellFormed fun u hu => (hg u hu).wellFormed
  flat := h.flat fun u hu => (hg u hu).flat
  flagged := h.flagged fun u hu => (hg u hu).flagged

/-- What an operation that splices makes grows from the terms among its arguments. -/
theorem grownFrom_of_splices {operation : Operation} (ho : operation.Splices) {vs : List Value}
    (h : operation.apply vs = .ok t) : GrownFrom (allTerms vs) t := by
  cases operation with
  | factory f => exact grownFrom_of_factory h
  | constructor c => exact ho.elim
  | operator o => exact grownFrom_of_operator h

/-- An obtainable term is regular. -/
theorem Obtainable.regular (h : t.Obtainable) : t.Regular := by
  obtain ⟨e, he, hv⟩ := h
  have hnone : ∀ v ∈ (none : Option Value), v.Holds Regular := nofun
  have hraw : ∀ v : Value, v.Raw → v.Holds Regular := by
    intro v hr t ht
    rw [hr] at ht
    cases ht
  have hholds : (Value.term t).Holds Regular :=
    he.holds_evalWith (fun _ ho _ _ hvs ht => (grownFrom_of_splices ho ht).regular hvs) hraw
      (fun _ => hnone) hnone hv
  exact hholds t (List.mem_singleton_self t)

/-! ## Flat terms are made -/

/-- A term that is neither a sequence nor the empty word is its only item. -/
theorem items_eq_singleton (h : t.kind ≠ .sequence ∧ t.kind ≠ .epsilon) : t.items = [t] := by
  cases t with
  | sequence => exact absurd rfl h.1
  | epsilon => exact absurd rfl h.2
  | _ => rfl

/-- Terms that are neither sequences nor the empty word are their own items. -/
theorem flatMap_items_eq_self {ts : List Term}
    (h : ∀ t ∈ ts, t.kind ≠ .sequence ∧ t.kind ≠ .epsilon) : ts.flatMap items = ts := by
  rw [List.flatMap_congr fun t ht => items_eq_singleton (h t ht), List.flatMap_singleton']

/-- Terms that are no choices are their own choices. -/
theorem flatMap_choices_eq_self {ts : List Term} (h : ∀ t ∈ ts, t.kind ≠ .alternatives) :
    ts.flatMap choices = ts := by
  have hchoices : ∀ t ∈ ts, t.choices = [t] := by
    intro t ht
    cases t with
    | alternatives => exact absurd rfl (h _ ht)
    | _ => rfl
  rw [List.flatMap_congr hchoices, List.flatMap_singleton']

/-- The terms of a spliced sequence are spliced into the sequence. -/
theorem followedBy_of_spliced {ts : List Term} (h : (sequence t ts).Spliced) :
    t.followedBy ts = .sequence t ts := by
  obtain ⟨hne, hkinds⟩ := h
  cases ts with
  | nil => exact absurd rfl hne
  | cons u us =>
    rw [followedBy, concat, flatMap_items_eq_self hkinds]
    rfl

/-- The terms of a spliced choice are spliced into the choice. -/
theorem orElse_of_spliced {ts : List Term} (h : (alternatives t ts).Spliced) :
    t.orElse ts = .alternatives t ts := by
  obtain ⟨hne, hkinds⟩ := h
  cases ts with
  | nil => exact absurd rfl hne
  | cons u us =>
    have hchoices : t.preferred :: (t.others ++ (u :: us).flatMap choices) = t :: u :: us :=
      (choices_orElse t (u :: us)).trans (flatMap_choices_eq_self hkinds)
    rw [orElse, (List.cons.inj hchoices).1, (List.cons.inj hchoices).2]

/-- A spliced term alone is concatenated to itself. -/
theorem concat_singleton_of_spliced (h : t.Spliced) : concat [t] = t := by
  cases t with
  | sequence u us =>
    cases us with
    | nil => exact absurd rfl h.1
    | cons v vs => simp [concat, items, ofItems]
  | _ => rfl

/-- A regular term is made again from its children. -/
theorem rebuilt_eq_self (h : t.Regular) : t.rebuilt = .ok t := by
  have hspliced : t.Spliced := (flat_iff.mp h.flat).1
  have hchild : ∀ c ∈ t.children, c.Spliced := fun c hc =>
    (flat_iff.mp (h.of_mem_children hc).flat).1
  cases t with
  | sequence u us =>
    refine sequenceOf_eq_ok_iff.mpr ⟨u, us, rfl, rfl, ?_⟩
    rw [followedBy_of_spliced hspliced]
  | alternatives u us =>
    refine choiceOf_eq_ok_iff.mpr ⟨u, us, rfl, rfl, ?_⟩
    rw [orElse_of_spliced hspliced]
  | optional u =>
    refine optionalOf_eq_ok_iff.mpr ⟨[u], rfl, ?_⟩
    rw [concat_singleton_of_spliced (hchild u (List.mem_singleton_self u))]
  | repetition u min max =>
    have hle : ∀ most ∈ max, min ≤ most := by
      rintro most rfl
      exact (wellFormed_iff.mp h.wellFormed).1
    refine repetitionOf_eq_ok_iff.mpr ⟨[u], min, max, rfl, rfl, rfl, hle, ?_⟩
    rw [concat_singleton_of_spliced (hchild u (List.mem_singleton_self u))]
  | _ => rfl

/-- Obtainable values are those of a list of expressions of operations that splice. -/
theorem exists_evalAllWith {vs : List Value} (h : ∀ v ∈ vs, v.Obtainable) :
    ∃ es : List Expression, (∀ e ∈ es, e.Within Operation.Splices Value.Raw) ∧
      Expression.evalAllWith (fun _ => none) none es = .ok vs := by
  induction vs with
  | nil => exact ⟨[], nofun, rfl⟩
  | cons v vs ih =>
    rw [List.forall_mem_cons] at h
    obtain ⟨e, he, hv⟩ := h.1
    obtain ⟨es, hes, hvs⟩ := ih h.2
    refine ⟨e :: es, List.forall_mem_cons.mpr ⟨he, hes⟩, ?_⟩
    rw [Expression.eval] at hv
    rw [Expression.evalAllWith, hv, hvs]
    rfl

/-- What an operation that splices makes of obtainable values is obtainable. -/
theorem obtainable_of_apply (operation : Operation) (ho : operation.Splices) {vs : List Value}
    (h : ∀ v ∈ vs, v.Obtainable) (ht : operation.apply vs = .ok t) : t.Obtainable := by
  obtain ⟨es, hes, hvs⟩ := exists_evalAllWith h
  refine ⟨.call operation es, .call ho hes, ?_⟩
  exact bind_eq_ok_iff.mpr ⟨vs, hvs, bind_eq_ok_iff.mpr ⟨t, ht, rfl⟩⟩

/-- A raw value is obtainable. -/
theorem obtainable_of_raw {v : Value} (h : v.Raw) : v.Obtainable := ⟨.value v, .value h, rfl⟩

/-- A regular leaf is obtainable. -/
theorem obtainable_of_leaf (h : t.Regular) (ht : t.children = []) : t.Obtainable := by
  have hs : t.Sound := (wellFormed_iff.mp h.wellFormed).1
  have hraw {s : String} : ∀ v ∈ [Value.text s], v.Obtainable :=
    List.forall_mem_singleton.mpr (obtainable_of_raw rfl)
  cases t with
  | literal s flag =>
    obtain ⟨sensitive, rfl⟩ := h.flagged s flag (self_mem_nodes _)
    cases sensitive with
    | true =>
      exact obtainable_of_apply (.factory .literal) trivial hraw
        (makeLiteral_eq_ok_iff.mpr ⟨s, rfl, hs, rfl⟩)
    | false =>
      exact obtainable_of_apply (.factory .caseInsensitive) trivial hraw
        (makeLiteral_eq_ok_iff.mpr ⟨s, rfl, hs, rfl⟩)
  | characterSet name points =>
    obtain ⟨hn, ha, hp⟩ := hs
    -- the exclusions are added to a set without any
    have hfull : (characterSet name []).Obtainable :=
      obtainable_of_apply (.factory .charactersOf) trivial hraw
        (makeFullCharacterSet_eq_ok_iff.mpr ⟨name, rfl, hn, rfl⟩)
    have hvalues : ∀ v ∈ Value.term (.characterSet name []) :: points.map fun n : Nat => .int n,
        v.Obtainable := by
      refine List.forall_mem_cons.mpr ⟨hfull, fun v hv => ?_⟩
      obtain ⟨n, _, rfl⟩ := List.mem_map.mp hv
      exact obtainable_of_raw rfl
    exact obtainable_of_apply (.operator .excluding) nofun hvalues
      (excluding_eq_ok_iff.mpr ⟨name, [], points, rfl, mergeExcluded_of_ascending ha hp, rfl⟩)
  | nonTerminal name =>
    exact obtainable_of_apply (.factory .nonTerminal) trivial hraw
      (makeNonTerminal_eq_ok_iff.mpr ⟨name, rfl, hs, rfl⟩)
  | epsilon =>
    exact obtainable_of_apply (.factory .epsilon) trivial (List.forall_mem_nil _) rfl
  | _ => cases ht

/-- A composite term that is made again from its children is obtainable if they are. -/
theorem obtainable_of_rebuilt (ht : t.rebuilt = .ok t) (hne : t.children ≠ [])
    (h : ∀ c ∈ t.children, c.Obtainable) : t.Obtainable := by
  have hterms : ∀ v ∈ t.children.map Value.term, v.Obtainable :=
    List.forall_mem_map.mpr h
  cases t with
  | sequence u us => exact obtainable_of_apply (.factory .sequence) trivial hterms ht
  | alternatives u us => exact obtainable_of_apply (.factory .choice) trivial hterms ht
  | optional u => exact obtainable_of_apply (.factory .optional) trivial hterms ht
  | repetition u min max =>
    have hmin : (Value.int min).Obtainable := obtainable_of_raw rfl
    have hmax : (Value.ofBound max).Obtainable := obtainable_of_raw (Value.terms_ofBound max)
    exact obtainable_of_apply (.factory .between) trivial
      (List.forall_mem_cons.mpr ⟨hmin, List.forall_mem_cons.mpr ⟨hmax, hterms⟩⟩) ht
  | _ => exact absurd rfl hne

/-- A regular term is obtainable. -/
theorem obtainable_of_regular (h : t.Regular) : t.Obtainable := by
  induction t using inductOnChildren with
  | h t ih =>
    by_cases ht : t.children = []
    · exact obtainable_of_leaf h ht
    · exact obtainable_of_rebuilt (rebuilt_eq_self h) ht fun c hc => ih c hc (h.of_mem_children hc)

/-- Factories and operators on raw values, nested to any depth, make exactly the well-formed flat
terms whose literals have truth values as flags. Every composite part of such a term is what its
factory makes of its children. -/
theorem obtainable_iff_flat (t : Term) :
    (t.Obtainable ↔ t.WellFormed ∧ t.Flat ∧ t.Flagged) ∧
      (t.Obtainable → ∀ u ∈ t.nodes, u.rebuilt = .ok u) := by
  refine ⟨⟨fun h => ?_, fun ⟨hw, hf, hl⟩ => obtainable_of_regular ⟨hw, hf, hl⟩⟩,
    fun h u hu => rebuilt_eq_self (h.regular.of_mem_nodes hu)⟩
  exact ⟨h.regular.wellFormed, h.regular.flat, h.regular.flagged⟩

/-- The letter `e` in either case, and after it up to three digits but zeros, or nothing. -/
def flatSample : Term :=
  .sequence (.literal "e" (.bool false))
    [.alternatives (.repetition (.characterSet "DIGIT" [48]) 1 (some 3)) [.epsilon]]

/-- The sample is obtainable, and so made again from its children. A sequence of the sample and the
empty word is not obtainable. -/
theorem obtainable_iff_flat_sample :
    flatSample.Obtainable ∧ flatSample.rebuilt = .ok flatSample ∧
      ¬ (Term.sequence flatSample [.epsilon]).Obtainable := by
  have hflagged : flatSample.Flagged := by
    intro s flag h
    simp only [flatSample, nodes, allNodes, List.append_nil, List.cons_append, List.nil_append,
      List.mem_cons, literal.injEq, reduceCtorEq, List.not_mem_nil, or_false, false_or] at h
    exact ⟨false, h.2⟩
  have hobtainable : flatSample.Obtainable :=
    (obtainable_iff_flat flatSample).1.mpr ⟨by decide, by decide, hflagged⟩
  refine ⟨hobtainable, (obtainable_iff_flat _).2 hobtainable _ flatSample.self_mem_nodes, ?_⟩
  intro h
  exact absurd ((obtainable_iff_flat _).1.mp h).2.1 (by decide)

end Term

end FormalGrammar

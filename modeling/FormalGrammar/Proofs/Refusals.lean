import FormalGrammar.Operation
import FormalGrammar.Proofs.Construction
import FormalGrammar.Term.Assembly

/-!
# What factories refuse

A factory that splices terms refuses the leftmost argument that is no term, then
bounds that are none, and nothing else. It can be carried out step by step, where
each term is attached to an assembly and what was gathered goes to the constructor
of its kind; no constructor ever refuses that.
-/

namespace FormalGrammar

/-- What bounds are refused for: the least count before the kind of the greatest, and that before
the order of the two. -/
inductive BoundsFault : Value → Value → ConstructionError → Prop
  | minimum {min max : Value} : (∀ n : Nat, min ≠ .int n) → BoundsFault min max (.minimum min)
  | maximum {least : Nat} {max : Value} : max ≠ .null → (∀ n : Int, max ≠ .int n) →
      BoundsFault (.int least) max (.maximum max)
  | maximumBelowMinimum {least : Nat} {most : Int} : most < least →
      BoundsFault (.int least) (.int most) (.maximumBelowMinimum most least)

/-- Whether bounds are bad: the least count is no integer from zero on, the greatest is neither
absent nor an integer, or it is an integer below the least. -/
def BadBounds (min max : Value) : Prop :=
  (∀ n : Nat, min ≠ .int n) ∨ (max ≠ .null ∧ ∀ n : Int, max ≠ .int n) ∨
    ∃ least most : Int, min = .int least ∧ max = .int most ∧ most < least

/-- Bounds are refused for something exactly if they are bad. -/
theorem exists_boundsFault_iff {min max : Value} :
    (∃ cause, BoundsFault min max cause) ↔ BadBounds min max := by
  constructor
  · rintro ⟨cause, h⟩
    cases h with
    | minimum hmin => exact Or.inl hmin
    | maximum hnull hmax => exact Or.inr (Or.inl ⟨hnull, hmax⟩)
    | maximumBelowMinimum hlt => exact Or.inr (Or.inr ⟨_, _, rfl, rfl, hlt⟩)
  · intro h
    by_cases hmin : ∃ n : Nat, min = .int n
    · obtain ⟨least, rfl⟩ := hmin
      rcases h with hno | ⟨hnull, hmax⟩ | ⟨_, most, he, rfl, hlt⟩
      · exact absurd rfl (hno least)
      · exact ⟨_, .maximum hnull hmax⟩
      · cases he
        exact ⟨_, .maximumBelowMinimum hlt⟩
    · exact ⟨_, .minimum fun n hn => hmin ⟨n, hn⟩⟩

namespace Value

/-- Exactly what is no integer from zero on is refused as a least count. -/
theorem toMinimum_eq_error_iff {v : Value} {e : Error} :
    v.toMinimum = .error e ↔ (∀ n : Nat, v ≠ .int n) ∧ e = .construction (.minimum v) := by
  cases v with
  | int m =>
    cases m with
    | ofNat n =>
      refine iff_of_false (by simp [toMinimum]) ?_
      rintro ⟨hno, _⟩
      exact hno n rfl
    | negSucc n => simp [toMinimum, reject, eq_comm]
  | _ => simp [toMinimum, reject, eq_comm]

/-- Refused as a greatest count is what is neither absent nor an integer, and an integer below the
least count. -/
theorem toMaximum_eq_error_iff {least : Nat} {v : Value} {e : Error} :
    v.toMaximum least = .error e ↔
      (v ≠ .null ∧ (∀ n : Int, v ≠ .int n) ∧ e = .construction (.maximum v)) ∨
        ∃ n : Int, v = .int n ∧ n < least ∧ e = .construction (.maximumBelowMinimum n least) := by
  cases v with
  | null => simp [toMaximum]
  | int m =>
    by_cases hm : m < least
    · simp [toMaximum, hm, reject, eq_comm]
    · simp [toMaximum, hm]
  | _ => simp [toMaximum, reject, eq_comm]

/-- Where two values or more are terms, there are two terms or more. -/
theorem exists_of_toTerms_cons_cons {v w : Value} {vs : List Value} {ts : List Term}
    (h : toTerms (v :: w :: vs) = .ok ts) :
    ∃ t u us, ts = t :: u :: us ∧ v = .term t ∧ w :: vs = (u :: us).map .term := by
  have hvalues := toTerms_eq_ok_iff.mp h
  match ts with
  | [] | [_] => simp at hvalues
  | t :: u :: us => exact ⟨t, u, us, rfl, List.cons.inj hvalues⟩

end Value

/-- Bounds are refused exactly for their fault. -/
theorem Term.repeatWithin_eq_error_iff {body : Term} {min max : Value} {e : Error} :
    repeatWithin body min max = .error e ↔
      ∃ cause, BoundsFault min max cause ∧ e = .construction cause := by
  simp only [repeatWithin, bind_eq_error_iff, Value.toMinimum_eq_error_iff,
    Value.toMinimum_eq_ok_iff, Value.toMaximum_eq_error_iff, pure, Except.pure, reduceCtorEq,
    and_false, exists_false, or_false]
  constructor
  · rintro (⟨hmin, rfl⟩ | ⟨least, rfl, ⟨hnull, hmax, rfl⟩ | ⟨most, rfl, hlt, rfl⟩⟩)
    · exact ⟨_, .minimum hmin, rfl⟩
    · exact ⟨_, .maximum hnull hmax, rfl⟩
    · exact ⟨_, .maximumBelowMinimum hlt, rfl⟩
  · rintro ⟨cause, hcause, rfl⟩
    cases hcause with
    | minimum hmin => exact Or.inl ⟨hmin, rfl⟩
    | maximum hnull hmax => exact Or.inr ⟨_, rfl, Or.inl ⟨hnull, hmax, rfl⟩⟩
    | maximumBelowMinimum hlt => exact Or.inr ⟨_, rfl, Or.inr ⟨_, rfl, hlt, rfl⟩⟩

/-! ## Assemblies step by step -/

namespace Assembly

/-- Attach values one after the other, each after a check that it is a term. -/
def gather : List Value → Assembly → Except Error Assembly
  | [], a => .ok a
  | v :: vs, a => do
    let t ← v.toTerm
    let gathered ← a.attach t
    gather vs gathered

/-- What was gathered, handed to the constructor of its kind. A term alone is left as it is. -/
def construct : Assembly → Except Error Term
  | .choice [t] => .ok t
  | .choice ts => Constructor.alternatives.apply (ts.map .term)
  | .series [] => Constructor.epsilon.apply []
  | .series [t] => .ok t
  | .series ts => Constructor.sequence.apply (ts.map .term)
  | .definition term => (definition term).build

/-- Constructors make just what the assembly itself does. -/
theorem construct_eq_build (a : Assembly) : a.construct = a.build := by
  match a with
  | .choice [] | .choice [_] | .series [] | .series [_] | .definition _ => rfl
  | .choice (t :: u :: us) => exact Term.makeAlternatives_eq_ok_iff.mpr ⟨t, u :: us, rfl, rfl⟩
  | .series (t :: u :: us) => exact Term.makeSequence_eq_ok_iff.mpr ⟨t, u :: us, rfl, rfl⟩

/-- Where no term is refused, values are gathered as the terms that they are. -/
theorem gather_eq {vs : List Value} {a : Assembly} {gathered : List Term → Assembly}
    (h : ∀ ts, attachAll ts a = .ok (gathered ts)) :
    gather vs a = (do return gathered (← Value.toTerms vs)) := by
  induction vs generalizing a gathered with
  | nil =>
    cases h []
    rfl
  | cons v vs ih =>
    cases v with
    | term t =>
      obtain ⟨next, hnext, _⟩ := bind_eq_ok_iff.mp (h [t])
      have hrest : ∀ ts, attachAll ts next = .ok (gathered (t :: ts)) := by
        intro ts
        have hall := h (t :: ts)
        rw [attachAll, hnext] at hall
        exact hall
      have hgather : gather (.term t :: vs) a = (a.attach t >>= gather vs) := rfl
      rw [hgather, hnext, Value.toTerms]
      refine (ih hrest).trans ?_
      cases Value.toTerms vs <;> rfl
    | _ => rfl

/-- What is gathered in a series and handed to constructors is the concatenation of the terms. -/
theorem construct_gather_series (vs : List Value) :
    (do (← gather vs (.series [])).construct) = (do return Term.concat (← Value.toTerms vs)) := by
  rw [gather_eq (attachAll_series [])]
  cases Value.toTerms vs with
  | error e => rfl
  | ok ts => exact construct_eq_build _

/-- Two terms or more are gathered to the choice between them. -/
theorem build_choice (t u : Term) (us : List Term) :
    (choice ((t :: u :: us).flatMap Term.choices)).build = .ok (t.orElse (u :: us)) := by
  obtain ⟨second, rest, hrest⟩ : ∃ second rest,
      t.others ++ (u :: us).flatMap Term.choices = second :: rest :=
    List.exists_cons_of_ne_nil (by simp [Term.choices])
  have hall : (t :: u :: us).flatMap Term.choices = t.preferred :: second :: rest := by
    rw [List.flatMap_cons, Term.choices, List.cons_append, hrest]
  rw [hall, Term.orElse, hrest]
  rfl

/-- What two values or more are gathered to for a choice and handed to constructors is the choice
between the terms. -/
theorem construct_gather_choice (v w : Value) (vs : List Value) :
    (do (← gather (v :: w :: vs) (.choice [])).construct) = Term.choiceOf v (w :: vs) := by
  rw [gather_eq (attachAll_choice [])]
  cases hterms : Value.toTerms (v :: w :: vs) with
  | error e => exact (Value.toTerm_then_toTerms_eq_error_iff.mpr hterms).symm
  | ok ts =>
    obtain ⟨t, u, us, rfl, hv, hvs⟩ := Value.exists_of_toTerms_cons_cons hterms
    have hmade := Term.choiceOf_eq_ok_iff.mpr ⟨t, u :: us, hv, hvs, rfl⟩
    exact ((construct_eq_build _).trans (build_choice t u us)).trans hmade.symm

end Assembly

/-! ## Calls -/

/-- A call of a factory that splices terms, apart from the terms: the factory, and the bounds that
it is given. -/
inductive SplicingCall where
  | sequence
  | choice
  | optional
  | zeroOrMore
  | oneOrMore
  | atLeast (min : Value)
  | between (min max : Value)
  | exactly (count : Value)

namespace SplicingCall

/-- Make the call with the given terms. -/
def apply (call : SplicingCall) (terms : List Value) : Except Error Term :=
  match call with
  | .sequence => Factory.sequence.apply terms
  | .choice => Factory.choice.apply terms
  | .optional => Factory.optional.apply terms
  | .zeroOrMore => Factory.zeroOrMore.apply terms
  | .oneOrMore => Factory.oneOrMore.apply terms
  | .atLeast min => Factory.atLeast.apply (min :: terms)
  | .between min max => Factory.between.apply (min :: max :: terms)
  | .exactly count => Factory.exactly.apply (count :: terms)

/-- The least and the greatest count, if the call counts. -/
def bounds? : SplicingCall → Option (Value × Value)
  | .sequence | .choice | .optional => none
  | .zeroOrMore => some (.int 0, .null)
  | .oneOrMore => some (.int 1, .null)
  | .atLeast min => some (min, .null)
  | .between min max => some (min, max)
  | .exactly count => some (count, count)

/-- Terms in a series, gathered and handed to constructors. -/
def series (terms : List Value) : Except Error Term := do
  (← Assembly.gather terms (.series [])).construct

/-- The call step by step. A term alone is only checked; otherwise all terms are gathered, and what
comes of them goes to a constructor again if there is to be more around it. -/
def stepwise : SplicingCall → List Value → Except Error Term
  | .sequence, [v] | .choice, [v] => v.toTerm
  | .sequence, vs => series vs
  | .choice, vs => do (← Assembly.gather vs (.choice [])).construct
  | .optional, vs => do Constructor.optional.apply [.term (← series vs)]
  | .zeroOrMore, vs => do Constructor.repetition.apply [.term (← series vs), .int 0, .null]
  | .oneOrMore, vs => do Constructor.repetition.apply [.term (← series vs), .int 1, .null]
  | .atLeast min, vs => do Constructor.repetition.apply [.term (← series vs), min, .null]
  | .between min max, vs => do Constructor.repetition.apply [.term (← series vs), min, max]
  | .exactly count, vs => do Constructor.repetition.apply [.term (← series vs), count, count]

/-- What is wrong with a call: the leftmost argument that is no term, or, where all are terms, what
its bounds are refused for. -/
inductive Fault (call : SplicingCall) (values : List Value) : ConstructionError → Prop
  | notATerm {before : List Term} {v : Value} {after : List Value} :
      values = before.map .term ++ v :: after → (∀ t, v ≠ .term t) →
        Fault call values (.notATerm v)
  | bounds {terms : List Term} {min max : Value} {cause : ConstructionError} :
      values = terms.map .term → call.bounds? = some (min, max) → BoundsFault min max cause →
        Fault call values cause

variable {call : SplicingCall} {v : Value} {vs : List Value} {e : Error}

/-- A call that counts makes a repetition within its bounds. -/
theorem apply_of_bounds {min max : Value} (h : call.bounds? = some (min, max)) :
    call.apply (v :: vs) = Term.repetitionOf min max (v :: vs) := by
  cases call <;> cases h <;> rfl

/-- A call that does not count is refused exactly if an argument is refused as a term. -/
theorem apply_eq_error_iff_of_no_bounds (h : call.bounds? = none) :
    call.apply (v :: vs) = .error e ↔ Value.toTerms (v :: vs) = .error e := by
  cases call with
  | sequence | choice => exact Value.toTerm_then_toTerms_eq_error_iff
  | optional =>
    simp only [apply, Factory.apply, Term.optionalOf, bind_eq_error_iff, pure, Except.pure,
      reduceCtorEq, and_false, exists_false, or_false]
  | _ => cases h

/-- A call is refused exactly for its fault. -/
theorem apply_eq_error_iff :
    call.apply (v :: vs) = .error e ↔
      ∃ cause, call.Fault (v :: vs) cause ∧ e = .construction cause := by
  cases hb : call.bounds? with
  | none =>
    rw [apply_eq_error_iff_of_no_bounds hb, Value.toTerms_eq_error_iff]
    constructor
    · rintro ⟨before, w, after, hvalues, hno, rfl⟩
      exact ⟨_, .notATerm hvalues hno, rfl⟩
    · rintro ⟨cause, hfault, rfl⟩
      cases hfault with
      | notATerm hvalues hno => exact ⟨_, _, _, hvalues, hno, rfl⟩
      | bounds _ hbounds _ => cases hb.symm.trans hbounds
  | some bounds =>
    obtain ⟨min, max⟩ := bounds
    rw [apply_of_bounds hb, Term.repetitionOf, bind_eq_error_iff, Value.toTerms_eq_error_iff]
    simp only [Value.toTerms_eq_ok_iff, Term.repeatWithin_eq_error_iff]
    constructor
    · rintro (⟨before, w, after, hvalues, hno, rfl⟩ | ⟨ts, hvalues, cause, hcause, rfl⟩)
      · exact ⟨_, .notATerm hvalues hno, rfl⟩
      · exact ⟨_, .bounds hvalues hb hcause, rfl⟩
    · rintro ⟨cause, hfault, rfl⟩
      cases hfault with
      | notATerm hvalues hno => exact Or.inl ⟨_, _, _, hvalues, hno, rfl⟩
      | bounds hvalues hbounds hcause =>
        cases hb.symm.trans hbounds
        exact Or.inr ⟨_, hvalues, _, hcause, rfl⟩

/-- Something is wrong with a call exactly if an argument is no term or its bounds are bad. -/
theorem exists_fault_iff :
    (∃ cause, call.Fault vs cause) ↔
      (∃ w ∈ vs, ∀ t, w ≠ .term t) ∨
        ∃ min max, call.bounds? = some (min, max) ∧ BadBounds min max := by
  constructor
  · rintro ⟨cause, hfault⟩
    cases hfault with
    | @notATerm before w after hvalues hno =>
      refine Or.inl ⟨w, ?_, hno⟩
      rw [hvalues]
      exact List.mem_append_right _ List.mem_cons_self
    | bounds _ hbounds hcause =>
      exact Or.inr ⟨_, _, hbounds, exists_boundsFault_iff.mp ⟨_, hcause⟩⟩
  · intro h
    cases hterms : Value.toTerms vs with
    | error e =>
      obtain ⟨before, w, after, hvalues, hno, _⟩ := Value.toTerms_eq_error_iff.mp hterms
      exact ⟨_, .notATerm hvalues hno⟩
    | ok ts =>
      have hvalues := Value.toTerms_eq_ok_iff.mp hterms
      rcases h with ⟨w, hw, hno⟩ | ⟨min, max, hbounds, hbad⟩
      · rw [hvalues] at hw
        obtain ⟨t, _, rfl⟩ := List.mem_map.mp hw
        exact absurd rfl (hno t)
      · obtain ⟨cause, hcause⟩ := exists_boundsFault_iff.mpr hbad
        exact ⟨cause, .bounds hvalues hbounds hcause⟩

/-- Step by step a call that counts hands the series and its bounds to a constructor. -/
theorem stepwise_of_bounds {min max : Value} (h : call.bounds? = some (min, max)) :
    call.stepwise vs = (do Constructor.repetition.apply [.term (← series vs), min, max]) := by
  cases call <;> cases h <;> rfl

/-- Two values or more are made the same sequence step by step. -/
theorem series_cons_cons (v w : Value) (vs : List Value) :
    series (v :: w :: vs) = Term.sequenceOf v (w :: vs) := by
  rw [series, Assembly.construct_gather_series]
  cases hterms : Value.toTerms (v :: w :: vs) with
  | error e => exact (Value.toTerm_then_toTerms_eq_error_iff.mpr hterms).symm
  | ok ts =>
    obtain ⟨t, u, us, rfl, hv, hvs⟩ := Value.exists_of_toTerms_cons_cons hterms
    exact (Term.sequenceOf_eq_ok_iff.mpr ⟨t, u :: us, hv, hvs, rfl⟩).symm

/-- Step by step every call comes to the same. -/
theorem apply_eq_stepwise : call.apply (v :: vs) = call.stepwise (v :: vs) := by
  cases hb : call.bounds? with
  | some bounds =>
    rw [apply_of_bounds hb, stepwise_of_bounds hb, series, Assembly.construct_gather_series,
      Term.repetitionOf]
    cases Value.toTerms (v :: vs) <;> rfl
  | none =>
    cases call with
    | sequence =>
      cases vs with
      | nil => cases v <;> rfl
      | cons w vs => exact (series_cons_cons v w vs).symm
    | choice =>
      cases vs with
      | nil => cases v <;> rfl
      | cons w vs => exact (Assembly.construct_gather_choice v w vs).symm
    | optional =>
      rw [stepwise, series, Assembly.construct_gather_series]
      change Term.optionalOf (v :: vs) = _
      rw [Term.optionalOf]
      cases Value.toTerms (v :: vs) <;> rfl
    | _ => cases hb

/-- Any arguments are refused by a call exactly for the leftmost that is no term or, where all are
terms, for what is wrong with the bounds first; and for nothing else. Carried out step by step the
call comes to the same, and whatever terms are gathered, no constructor refuses them. -/
theorem call_refusals (call : SplicingCall) (v : Value) (vs : List Value) :
    (∀ e, call.apply (v :: vs) = .error e ↔
      ∃ cause, call.Fault (v :: vs) cause ∧ e = .construction cause) ∧
    ((∃ cause, call.apply (v :: vs) = .error (.construction cause)) ↔
      (∃ w ∈ v :: vs, ∀ t, w ≠ .term t) ∨
        ∃ min max, call.bounds? = some (min, max) ∧ BadBounds min max) ∧
    call.apply (v :: vs) = call.stepwise (v :: vs) ∧
    ∀ (t : Term) (ts : List Term),
      (∃ u, (do (← Assembly.gather ((t :: ts).map .term) (.series [])).construct) = .ok u) ∧
      ∃ u, (do (← Assembly.gather ((t :: ts).map .term) (.choice [])).construct) = .ok u := by
  refine ⟨fun e => apply_eq_error_iff, ?_, apply_eq_stepwise, fun t ts => ⟨?_, ?_⟩⟩
  · rw [← exists_fault_iff]
    simp only [apply_eq_error_iff, Error.construction.injEq, exists_eq_right']
  · rw [Assembly.construct_gather_series, Value.toTerms_map_term]
    exact ⟨_, rfl⟩
  · rw [Assembly.gather_eq (Assembly.attachAll_choice []), Value.toTerms_map_term]
    exact ⟨_, Assembly.construct_eq_build _⟩

/-- A call is refused for a text among its terms in spite of a truth value as its least count, for
the truth value if all are terms, and for a greatest count below the least if both are counts. -/
theorem call_refusals_sample :
    (SplicingCall.between (.bool true) (.int 1)).apply
        [.term (.nonTerminal "sum"), .text "+", .null] =
      .error (.construction (.notATerm (.text "+"))) ∧
    (SplicingCall.exactly (.bool true)).apply [.term .epsilon] =
      .error (.construction (.minimum (.bool true))) ∧
    (SplicingCall.between (.int 3) (.int 1)).apply [.term .epsilon] =
      .error (.construction (.maximumBelowMinimum 1 3)) := by
  have hsplit : [.term (.nonTerminal "sum"), .text "+", .null] =
      [Term.nonTerminal "sum"].map Value.term ++ .text "+" :: [.null] := rfl
  have halone : [.term .epsilon] = [Term.epsilon].map Value.term := rfl
  have hplus : (between (.bool true) (.int 1)).Fault _ (.notATerm (.text "+")) :=
    .notATerm hsplit (by simp)
  have htrue : (exactly (.bool true)).Fault _ (.minimum (.bool true)) :=
    .bounds halone rfl (.minimum (by simp))
  have hbelow : (between (.int 3) (.int 1)).Fault _ (.maximumBelowMinimum 1 3) :=
    .bounds halone rfl (.maximumBelowMinimum (by decide))
  exact ⟨((call_refusals _ _ _).1 _).mpr ⟨_, hplus, rfl⟩,
    ((call_refusals _ _ _).1 _).mpr ⟨_, htrue, rfl⟩,
    ((call_refusals _ _ _).1 _).mpr ⟨_, hbelow, rfl⟩⟩

end SplicingCall

end FormalGrammar

import FormalGrammar.Expression
import FormalGrammar.Proofs.AddedNodes
import FormalGrammar.Term.WellFormed

/-!
# Terms that exist make sense

Every operation makes a well-formed term of well-formed ones, whatever else it
is given, or it fails. Hence an expression that is nested to any depth has a
well-formed value, or none. Bounds and exclusions that are stored are integers;
nothing that only equals one is among them.
-/

namespace FormalGrammar

open Value (allTerms)

/-- Whether all terms in a value have a property. -/
def Value.Holds (P : Term → Prop) (v : Value) : Prop := ∀ t ∈ v.terms, P t

/-- Whether all terms in a value are well formed. -/
def Value.WellFormed (v : Value) : Prop := v.Holds Term.WellFormed

instance (v : Value) : Decidable v.WellFormed :=
  inferInstanceAs (Decidable (∀ t ∈ v.terms, t.WellFormed))

/-! ## Operations -/

namespace Term

variable {given : List Term} {t : Term}

/-- What grows from well-formed terms is well formed. -/
theorem GrownFrom.wellFormed (h : GrownFrom given t) (hg : ∀ u ∈ given, u.WellFormed) :
    t.WellFormed := by
  intro u hu
  rcases h u hu with ha | ⟨v, hv, hu⟩
  · cases ha with
    | literal _ hs => exact hs
    | characterSet hn => exact ⟨hn, .nil, nofun⟩
    | excluding hm hp hl =>
      have hold := hg _ hm _ (self_mem_nodes _)
      exact ⟨hold.1, hp, hl⟩
    | nonTerminal hn => exact hn
    | sequence | alternatives | optional | epsilon => trivial
    | @repetition _ _ max hle =>
      cases max with
      | none => trivial
      | some most => exact hle most rfl
  · exact hg v hv u hu

/-- The terms among the elements of a value are well formed if those in the value are. -/
theorem wellFormed_of_mem_elements {v : Value} (hv : v.WellFormed) {vs : List Value}
    (h : v.elements = .ok vs) : ∀ u ∈ allTerms vs, u.WellFormed := by
  have htexts {β : Type} (xs : List β) (f : β → String) :
      allTerms (xs.map fun x => .text (f x)) = [] := by
    induction xs with
    | nil => rfl
    | cons x xs ih => exact ih
  unfold Value.elements at h
  split at h
  case h_1 =>
    cases h
    exact hv
  case h_2 | h_3 =>
    cases h
    rw [htexts]
    exact nofun
  case h_4 | h_5 =>
    cases h
    rw [Value.allTerms_map_term]
    exact (wellFormed_iff.mp (hv _ (List.mem_singleton_self _))).2
  case h_6 => cases h

/-- A sequence of well-formed terms as they are is well formed. -/
theorem wellFormed_of_makeSequence {vs : List Value} (h : makeSequence vs = .ok t)
    (hvs : ∀ u ∈ allTerms vs, u.WellFormed) : t.WellFormed := by
  obtain ⟨u, us, rfl, rfl⟩ := makeSequence_eq_ok_iff.mp h
  rw [Value.allTerms_map_term] at hvs
  exact wellFormed_iff.mpr ⟨trivial, hvs⟩

/-- A choice between well-formed terms as they are is well formed. -/
theorem wellFormed_of_makeAlternatives {vs : List Value} (h : makeAlternatives vs = .ok t)
    (hvs : ∀ u ∈ allTerms vs, u.WellFormed) : t.WellFormed := by
  obtain ⟨u, us, rfl, rfl⟩ := makeAlternatives_eq_ok_iff.mp h
  rw [Value.allTerms_map_term] at hvs
  exact wellFormed_iff.mpr ⟨trivial, hvs⟩

/-- A repetition of a well-formed term within bounds is well formed. -/
theorem wellFormed_of_makeRepetition {body min max : Value} {vs : List Value}
    (h : makeRepetition body min max = .ok t) (hvs : ∀ u ∈ allTerms (body :: vs), u.WellFormed) :
    t.WellFormed := by
  obtain ⟨u, rfl, h⟩ := makeRepetition_eq_ok_iff.mp h
  obtain ⟨least, most, rfl, rfl, hle, rfl⟩ := repeatWithin_eq_ok_iff.mp h
  have hg : GrownFrom [u] u := grownFrom_of_mem (List.mem_singleton_self u)
  refine (hg.repetition hle).wellFormed fun v hv => ?_
  rw [List.mem_singleton.mp hv]
  exact hvs u List.mem_cons_self

/-- What a constructor makes of well-formed terms is well formed. -/
theorem wellFormed_of_constructor {c : Constructor} {vs : List Value} (h : c.apply vs = .ok t)
    (hvs : ∀ u ∈ allTerms vs, u.WellFormed) : t.WellFormed := by
  unfold Constructor.apply at h
  split at h
  case h_1 | h_2 =>
    obtain ⟨s, rfl, hs, rfl⟩ := makeLiteral_eq_ok_iff.mp h
    exact wellFormed_of_leaf hs rfl
  case h_3 =>
    obtain ⟨s, rfl, hs, rfl⟩ := makeFullCharacterSet_eq_ok_iff.mp h
    exact wellFormed_of_leaf ⟨hs, .nil, List.forall_mem_nil _⟩ rfl
  case h_4 =>
    obtain ⟨s, vs, points, rfl, hs, _, hp, rfl⟩ := makeCharacterSet_eq_ok_iff.mp h
    exact wellFormed_of_leaf ⟨hs, sound_of_mergeExcluded hp⟩ rfl
  case h_5 =>
    obtain ⟨s, rfl, hs, rfl⟩ := makeNonTerminal_eq_ok_iff.mp h
    exact wellFormed_of_leaf hs rfl
  case h_6 => exact wellFormed_of_makeSequence h hvs
  case h_7 value =>
    obtain ⟨ws, hws, h⟩ := bind_eq_ok_iff.mp h
    rw [Value.allTerms, Value.allTerms, List.append_nil] at hvs
    exact wellFormed_of_makeSequence h (wellFormed_of_mem_elements hvs hws)
  case h_8 => exact wellFormed_of_makeAlternatives h hvs
  case h_9 value =>
    obtain ⟨ws, hws, h⟩ := bind_eq_ok_iff.mp h
    rw [Value.allTerms, Value.allTerms, List.append_nil] at hvs
    exact wellFormed_of_makeAlternatives h (wellFormed_of_mem_elements hvs hws)
  case h_10 =>
    obtain ⟨u, rfl, rfl⟩ := makeOptional_eq_ok_iff.mp h
    exact wellFormed_iff.mpr ⟨trivial, hvs⟩
  case h_11 | h_12 | h_13 => exact wellFormed_of_makeRepetition h hvs
  case h_14 =>
    cases h
    exact wellFormed_of_leaf trivial rfl
  case h_15 => cases h

/-- What an operation makes of well-formed terms is well formed. -/
theorem wellFormed_of_operation {operation : Operation} {vs : List Value}
    (h : operation.apply vs = .ok t) (hvs : ∀ u ∈ allTerms vs, u.WellFormed) : t.WellFormed := by
  cases operation with
  | factory f => exact (grownFrom_of_factory h).wellFormed hvs
  | constructor c => exact wellFormed_of_constructor h hvs
  | operator o => exact (grownFrom_of_operator h).wellFormed hvs

end Term

/-! ## Expressions -/

/-- What holds at first and is kept by a step holds after any number of steps. -/
theorem iterate_invariant {α : Type} {P : α → Prop} {step : α → Except Error α}
    (h : ∀ x y, P x → step x = .ok y → P y) {n : Nat} {x y : α} (hx : P x)
    (hy : iterate step n x = .ok y) : P y := by
  induction n generalizing x with
  | zero =>
    cases hy
    exact hx
  | succ n ih =>
    obtain ⟨z, hz, hy⟩ := bind_eq_ok_iff.mp hy
    exact ih (h x z hx hz) hy

namespace Expression

/-- Whether an expression has only allowed operations and only raw values of some kind in it. -/
inductive Within (allowed : Operation → Prop) (raw : Value → Prop) : Expression → Prop
  | value {v : Value} : raw v → Within allowed raw (.value v)
  | named {name : String} : Within allowed raw (.variable name)
  | hole : Within allowed raw .hole
  | nest {count : Nat} {template start : Expression} : Within allowed raw template →
      Within allowed raw start → Within allowed raw (.nest count template start)
  | call {operation : Operation} {arguments : List Expression} : allowed operation →
      (∀ e ∈ arguments, Within allowed raw e) → Within allowed raw (.call operation arguments)

variable {allowed : Operation → Prop} {raw : Value → Prop} {P : Term → Prop}
  {scope : String → Option Value} {content : Option Value} {e : Expression} {v : Value}

/-- A raw value is an expression within the limits if it is allowed. -/
@[simp] theorem within_value_iff : (value v).Within allowed raw ↔ raw v :=
  ⟨fun | .value h => h, .value⟩

/-- A variable is an expression within any limits. -/
@[simp] theorem within_variable {name : String} : Within allowed raw (.variable name) := .named

/-- An operation on expressions is within the limits if it is allowed and they are. -/
@[simp] theorem within_call_iff {operation : Operation} {arguments : List Expression} :
    (call operation arguments).Within allowed raw ↔
      allowed operation ∧ ∀ e ∈ arguments, e.Within allowed raw :=
  ⟨fun | .call ho ha => ⟨ho, ha⟩, fun h => .call h.1 h.2⟩

/-- If the values of expressions hold only terms with a property, all terms in them have it. -/
theorem forall_mem_allTerms_of_evalAllWith {es : List Expression}
    (h : ∀ e ∈ es, ∀ v, e.evalWith scope content = .ok v → v.Holds P) {vs : List Value}
    (hvs : evalAllWith scope content es = .ok vs) : ∀ t ∈ allTerms vs, P t := by
  induction es generalizing vs with
  | nil =>
    cases hvs
    exact nofun
  | cons e es ih =>
    rw [List.forall_mem_cons] at h
    obtain ⟨v, hv, hvs⟩ := bind_eq_ok_iff.mp hvs
    obtain ⟨ws, hws, hvs⟩ := bind_eq_ok_iff.mp hvs
    cases hvs
    exact List.forall_mem_append.mpr ⟨h.1 v hv, ih h.2 hws⟩

/-- A property of terms that the allowed operations keep holds of all terms in the value of an
expression, if it does of those in raw values, in variables and in what the hole holds. -/
theorem Within.holds_evalWith
    (hstep : ∀ operation, allowed operation → ∀ vs t, (∀ u ∈ allTerms vs, P u) →
      operation.apply vs = .ok t → P t)
    (hraw : ∀ v, raw v → v.Holds P) (hscope : ∀ name, ∀ v ∈ scope name, v.Holds P)
    (he : e.Within allowed raw) (hcontent : ∀ v ∈ content, v.Holds P)
    (hv : e.evalWith scope content = .ok v) : v.Holds P := by
  induction he generalizing content v with
  | value hr =>
    cases hv
    exact hraw _ hr
  | @named name =>
    rw [evalWith] at hv
    cases hs : scope name with
    | none => simp [hs, held] at hv
    | some w =>
      simp only [hs, held, Except.ok.injEq] at hv
      exact hv ▸ hscope name w hs
  | hole =>
    cases content with
    | none => cases hv
    | some w =>
      cases hv
      exact hcontent _ rfl
  | nest _ _ ihtemplate ihstart =>
    obtain ⟨w, hw, hv⟩ := bind_eq_ok_iff.mp hv
    refine iterate_invariant (fun x y hx hy => ihtemplate ?_ hy) (ihstart hcontent hw) hv
    exact fun z hz => Option.some.inj hz ▸ hx
  | call ho _ ih =>
    obtain ⟨vs, hvs, hv⟩ := bind_eq_ok_iff.mp hv
    obtain ⟨t, ht, hv⟩ := bind_eq_ok_iff.mp hv
    cases hv
    have harguments := forall_mem_allTerms_of_evalAllWith (fun e he v => ih e he hcontent) hvs
    exact List.forall_mem_singleton.mpr (hstep _ ho vs t harguments ht)

/-- An expression of any depth, with any raw values and variables that hold well-formed terms only,
has no term as its value but a well-formed one, and an operation yields a term or fails. Bounds that
a repetition stores were given as integers, and the exclusions that a set stores are all that is
left after merging, where everything is an integer. -/
theorem eval_wellFormed (hscope : ∀ name, ∀ v ∈ scope name, v.WellFormed) :
    (∀ e : Expression, e.Within (fun _ => True) Value.WellFormed →
      ∀ t, e.eval scope = .ok (.term t) → ∀ u ∈ t.nodes, u.Sound) ∧
    (∀ operation arguments v, (call operation arguments).eval scope = .ok v → ∃ t, v = .term t) ∧
    (∀ body min max t, Term.repeatWithin body min max = .ok t →
      ∃ (least : Nat) (most : Option Nat), min = .int least ∧ max = .ofBound most ∧
        t = .repetition body least most) ∧
    ∀ old values points, mergeExcluded old values = .ok points → ∀ v,
      v ∈ Value.distinct (old.map (fun n => .int n) ++ values) ↔ ∃ n ∈ points, v = .int n := by
  refine ⟨fun e he t ht => ?_, fun operation arguments v hv => ?_, fun body min max t ht => ?_,
    fun old values points hp v => mem_distinct_iff_of_mergeExcluded hp⟩
  · have hhole : ∀ v ∈ (none : Option Value), v.Holds Term.WellFormed := nofun
    have hholds : (Value.term t).WellFormed :=
      he.holds_evalWith (fun _ _ _ _ hvs ht => Term.wellFormed_of_operation ht hvs)
        (fun _ hv => hv) hscope hhole ht
    exact hholds t (List.mem_singleton_self t)
  · obtain ⟨vs, _, hv⟩ := bind_eq_ok_iff.mp hv
    obtain ⟨t, _, hv⟩ := bind_eq_ok_iff.mp hv
    cases hv
    exact ⟨t, rfl⟩
  · obtain ⟨least, most, hmin, hmax, _, rfl⟩ := Term.repeatWithin_eq_ok_iff.mp ht
    exact ⟨least, most, hmin, hmax, rfl⟩

/-- A scope with one variable, which is a reference. -/
def sampleScope (name : String) : Option Value :=
  if name = "digits" then some (.term (.nonTerminal "digits")) else none

/-- A digit that is not excluded and then digits, two or three times. A truth value is excluded
after the integer that it equals. -/
def sampleExpression : Expression :=
  .call (.constructor .repetition)
    [.call (.constructor .sequenceOfElements)
      [.call (.factory .choice)
        [.call (.operator .excluding)
          [.call (.constructor .characterSet) [.value (.text "DIGIT"), .value (.list [.int 55])],
            .value (.int 1), .value (.bool true)],
          .variable "digits"]],
      .value (.int 2), .value (.int 3)]

/-- The sample has a repetition of a sequence as its value, and all of it makes sense. -/
theorem eval_wellFormed_sample :
    (∀ name, ∀ v ∈ sampleScope name, v.WellFormed) ∧
      sampleExpression.Within (fun _ => True) Value.WellFormed ∧
      sampleExpression.eval sampleScope = .ok (.term (.repetition
        (.sequence (.characterSet "DIGIT" [1, 55]) [.nonTerminal "digits"]) 2 (some 3))) ∧
      ∀ u ∈ (Term.repetition
        (.sequence (.characterSet "DIGIT" [1, 55]) [.nonTerminal "digits"]) 2 (some 3)).nodes,
        u.Sound := by
  have hscope : ∀ name, ∀ v ∈ sampleScope name, v.WellFormed := by
    intro name v hv
    unfold sampleScope at hv
    split at hv
    · cases hv
      decide
    · cases hv
  have hwithin : sampleExpression.Within (fun _ => True) Value.WellFormed := by
    have hname : (Value.text "DIGIT").WellFormed := by decide
    have hpoints : (Value.list [.int 55]).WellFormed := by decide
    have hnumber (n : Int) : (Value.int n).WellFormed := nofun
    have htruth : (Value.bool true).WellFormed := nofun
    simp [sampleExpression, hname, hpoints, hnumber, htruth]
  have hvalue : sampleExpression.eval sampleScope = .ok (.term (.repetition
      (.sequence (.characterSet "DIGIT" [1, 55]) [.nonTerminal "digits"]) 2 (some 3))) := rfl
  exact ⟨hscope, hwithin, hvalue, (eval_wellFormed hscope).1 _ hwithin _ hvalue⟩

end Expression

end FormalGrammar

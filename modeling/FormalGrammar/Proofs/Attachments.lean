import FormalGrammar.Term.Attachment
import Mathlib.Data.List.Basic

/-!
# What assemblies gather

After any steps an assembly holds what the terms attached to it add, in order,
and a definition holds the first of them as it is. What is refused can be told
from the terms attached before, and changes nothing.
-/

namespace FormalGrammar.Assembly

variable {ι : Type} [DecidableEq ι]

/-- What a term adds where it is attached: its terms, one level deep, if it is a choice and a choice
is gathered, or a sequence and a series is; nothing to a series if it is the empty word; and
itself otherwise. -/
def Purpose.share : Purpose → Term → List Term
  | .choice, .alternatives t ts => t :: ts
  | .series, .sequence t ts => t :: ts
  | .series, .epsilon => []
  | _, t => [t]

/-- The term that a step attaches to the assembly at a place, whether it is refused or not. -/
def Step.attachment? (place : ι) : Step ι → Option Term
  | .attach term (.assembly other) => if other = place then some term else none
  | .attach _ (.value _) | .build _ => none

/-- The terms that steps attach to the assembly at a place, in order. -/
def attachedAt (place : ι) (steps : List (Step ι)) : List Term :=
  steps.filterMap (Step.attachment? place)

/-- The assembly to which terms have been attached in order, and where those a definition refuses
make no difference. -/
def holding : Purpose → List Term → Assembly
  | .choice, ts => .choice (ts.flatMap (Purpose.share .choice))
  | .series, ts => .series (ts.flatMap (Purpose.share .series))
  | .definition, ts => .definition ts.head?

/-- An assembly to which nothing has been attached holds what no terms add. -/
theorem holding_nil (purpose : Purpose) : holding purpose [] = empty purpose := by
  cases purpose <;> rfl

/-- A term adds its choices to a choice. -/
theorem share_choice (t : Term) : Purpose.share .choice t = t.choices := by
  cases t <;> rfl

/-- A term adds its items to a series. -/
theorem share_series (t : Term) : Purpose.share .series t = t.items := by
  cases t <;> rfl

/-- A further term is refused exactly by a definition that is there already. -/
theorem attach_holding (purpose : Purpose) (ts : List Term) (t : Term) :
    (holding purpose ts).attach t =
      if purpose = .definition ∧ ts ≠ [] then reject .alreadyDefined
      else .ok (holding purpose (ts ++ [t])) := by
  cases purpose with
  | choice =>
    rw [holding, holding, List.flatMap_append, List.flatMap_singleton, share_choice]
    rfl
  | series =>
    rw [holding, holding, List.flatMap_append, List.flatMap_singleton, share_series]
    rfl
  | definition =>
    cases ts with
    | nil => rfl
    | cons u us => rfl

/-- What a definition refuses makes no difference to what it holds. -/
theorem holding_append_of_refused {purpose : Purpose} {ts : List Term} (t : Term)
    (h : purpose = .definition ∧ ts ≠ []) : holding purpose (ts ++ [t]) = holding purpose ts := by
  obtain ⟨rfl, hts⟩ := h
  rw [holding, holding, List.head?_append_of_ne_nil ts hts]

/-- What steps attach is what the first of them attaches and then what the others do. -/
theorem attachedAt_cons (place : ι) (s : Step ι) (steps : List (Step ι)) :
    attachedAt place (s :: steps) = (s.attachment? place).toList ++ attachedAt place steps := by
  rw [attachedAt, List.filterMap_cons]
  cases s.attachment? place <;> rfl

/-- A step leaves every assembly holding what was attached to it before and in that step. -/
theorem step_holding (purpose : ι → Purpose) (held : ι → List Term) (s : Step ι) :
    (step (fun i => holding (purpose i) (held i)) s).1 =
      fun i => holding (purpose i) (held i ++ (s.attachment? i).toList) := by
  funext i
  cases s with
  | build place => simp [step, Step.attachment?]
  | attach t target =>
    cases target with
    | value v => simp [step, Step.attachment?]
    | assembly place =>
      rw [step, attach_holding, Step.attachment?]
      by_cases hplace : place = i
      · subst hplace
        rw [if_pos rfl, Option.toList_some]
        by_cases hrefused : purpose place = .definition ∧ held place ≠ []
        · rw [if_pos hrefused, holding_append_of_refused t hrefused]
        · rw [if_neg hrefused]
          simp only [if_true]
      · rw [if_neg hplace, Option.toList_none, List.append_nil]
        split
        · simp only [if_neg (Ne.symm hplace)]
        · rfl

/-- After steps every assembly holds what was attached to it before and in all of them. -/
theorem run_holding (purpose : ι → Purpose) (held : ι → List Term) (steps : List (Step ι)) :
    run (fun i => holding (purpose i) (held i)) steps =
      fun i => holding (purpose i) (held i ++ attachedAt i steps) := by
  induction steps generalizing held with
  | nil => simp [run, attachedAt]
  | cons s steps ih =>
    have hrest := ih fun i => held i ++ (s.attachment? i).toList
    rw [run] at hrest ⊢
    rw [List.foldl_cons, step_holding, hrest]
    funext i
    rw [List.append_assoc, attachedAt_cons]

/-- A step that is refused leaves every assembly as it was. -/
theorem step_of_error {bench : ι → Assembly} {s : Step ι} {e : Error}
    (h : (step bench s).2.error? = some e) : (step bench s).1 = bench := by
  cases s with
  | build place => rfl
  | attach t target =>
    cases target with
    | value v => rfl
    | assembly place =>
      cases ha : (bench place).attach t with
      | error e => simp only [step, ha]
      | ok gathered => simp [step, ha, Answer.error?] at h

/-- Every term adds something to a choice. -/
theorem share_choice_ne_nil (t : Term) : Purpose.share .choice t ≠ [] := by
  cases t <;> exact List.cons_ne_nil _ _

/-- What has been attached cannot be built exactly if something is needed and nothing was
attached. -/
theorem build_holding_eq_error_iff (purpose : Purpose) (ts : List Term) :
    (∃ e, (holding purpose ts).build = .error e) ↔ purpose ≠ .series ∧ ts = [] := by
  have hseries : ∀ us e, (series us).build ≠ .error e := fun _ _ he => by cases he
  cases purpose with
  | series => simp only [holding, hseries, exists_false, ne_eq, not_true_eq_false, false_and]
  | definition => cases ts <;> simp [holding, build, reject]
  | choice =>
    cases ts with
    | nil => simp [holding, build, reject]
    | cons t ts =>
      obtain ⟨u, us, hshare⟩ := List.exists_cons_of_ne_nil (share_choice_ne_nil t)
      simp [holding, List.flatMap_cons, hshare, build]

/-- After any steps with fresh assemblies, each holds what was attached to it: the choices or the
items of all terms, in order, or the first term as it is. A further term is refused by a definition
that holds one, and by nothing else that is an assembly; a value refuses every term. Building fails
exactly for a choice and a definition to which nothing was attached. What fails, and what builds,
leaves all assemblies as they are. -/
theorem run_gathers (purpose : ι → Purpose) (steps : List (Step ι)) :
    let bench := run (fun i => empty (purpose i)) steps
    (∀ i, bench i = holding (purpose i) (attachedAt i steps)) ∧
    (∀ i t, (step bench (.attach t (.assembly i))).2 = .attached
      (if purpose i = .definition ∧ attachedAt i steps ≠ [] then reject .alreadyDefined
        else .ok ())) ∧
    (∀ v t, (step bench (.attach t (.value v))).2 = .attached (.error (.notATarget v))) ∧
    (∀ i, (∃ e, (step bench (.build i)).2.error? = some e) ↔
      purpose i ≠ .series ∧ attachedAt i steps = []) ∧
    (∀ s e, (step bench s).2.error? = some e → (step bench s).1 = bench) ∧
    ∀ i, (step bench (.build i)).1 = bench := by
  intro bench
  have hheld : ∀ i, bench i = holding (purpose i) (attachedAt i steps) := by
    intro i
    have hrun := congrFun (run_holding purpose (fun _ => []) steps) i
    simpa only [holding_nil, List.nil_append] using hrun
  refine ⟨hheld, fun i t => ?_, fun v t => rfl, fun i => ?_, fun s e => step_of_error, fun i => rfl⟩
  · rw [step, hheld i, attach_holding]
    by_cases hrefused : purpose i = .definition ∧ attachedAt i steps ≠ []
    · rw [if_pos hrefused, if_pos hrefused]
    · rw [if_neg hrefused, if_neg hrefused]
  · rw [← build_holding_eq_error_iff, ← hheld i]
    constructor
    · rintro ⟨e, he⟩
      refine ⟨e, ?_⟩
      cases hb : (bench i).build with
      | error e' => simpa [step, hb, Answer.error?] using he
      | ok t => simp [step, hb, Answer.error?] at he
    · rintro ⟨e, he⟩
      exact ⟨e, by rw [step, he]; rfl⟩

/-- Steps with one assembly of each purpose, which is its place: a sequence is attached to all of
them, and a choice and the empty word to the definition, which holds the sequence, and to the
series. -/
def sampleSteps : List (Step Purpose) :=
  let pair : Term := .sequence (.nonTerminal "a") [.nonTerminal "b"]
  let either : Term := .alternatives (.nonTerminal "a") [.nonTerminal "b"]
  [.attach pair (.assembly .choice), .attach pair (.assembly .definition),
    .attach pair (.assembly .series), .build .series, .attach either (.assembly .definition),
    .attach either (.assembly .series), .attach .epsilon (.value .null),
    .attach .epsilon (.assembly .series)]

/-- In the sample the series gathers the items of the sequence and the choice as it is, and the
definition holds the sequence and refuses the empty word; it can be built, and `null` refuses the
empty word as well. -/
theorem run_gathers_sample :
    run empty sampleSteps .series = .series [.nonTerminal "a", .nonTerminal "b",
      .alternatives (.nonTerminal "a") [.nonTerminal "b"]] ∧
    run empty sampleSteps .definition =
      .definition (some (.sequence (.nonTerminal "a") [.nonTerminal "b"])) ∧
    (step (run empty sampleSteps) (.attach .epsilon (.assembly .definition))).2 =
      .attached (reject .alreadyDefined) ∧
    (step (run empty sampleSteps) (.attach .epsilon (.value .null))).1 = run empty sampleSteps ∧
    ¬ ∃ e, (step (run empty sampleSteps) (.build .definition)).2.error? = some e := by
  obtain ⟨hheld, hattach, hvalue, hbuild, hrefused, -⟩ := run_gathers (fun p => p) sampleSteps
  refine ⟨hheld .series, hheld .definition, hattach .definition .epsilon,
    hrefused (.attach .epsilon (.value .null)) (.notATarget .null) rfl, ?_⟩
  rw [hbuild .definition]
  rintro ⟨-, hnone⟩
  cases hnone

end FormalGrammar.Assembly

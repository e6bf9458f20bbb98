import FormalGrammar.Proofs.Reachable
import Mathlib.Data.List.Forall2

/-!
# Refused requests leave no trace

A request that is refused, or that only asks for a resolution, leaves a builder
exactly as it was. Striking such requests out of a run changes neither the
builder at its end nor the replies to the other requests. What productions a
builder holds is told by the granted requests for them, in their order.
-/

namespace FormalGrammar

/-- A request with the reply that it got. -/
structure Exchange where
  request : Request
  reply : Reply

/-- What was handed over in a request for a production. -/
structure Addition where
  name : Value
  first : Value
  rest : List Value
  location : String

/-- Whether a request asks for a resolution that leaves the builder as it is. -/
def Request.isResolve : Request → Bool
  | .resolve _ => true
  | .add .. | .setHeader _ | .build _ => false

namespace Exchange

/-- Whether a request was granted and was not only for a resolution. -/
def counts (x : Exchange) : Bool := x.reply.error?.isNone && !x.request.isResolve

/-- What was handed over, if the request was for a production and was granted. -/
def addition? : Exchange → Option Addition
  | ⟨.add name first rest location, .changed (.ok ())⟩ => some ⟨name, first, rest, location⟩
  | _ => none

end Exchange

/-- Whether a production has the name and the location that were handed over, and chooses between
the terms that were. -/
structure Addition.Makes (a : Addition) (p : Production) : Prop where
  name_eq : a.name = .text p.name
  name_ne_empty : p.name ≠ ""
  definition_eq : Term.choiceOf a.first a.rest = .ok p.definition
  location_eq : a.location = p.location

namespace Builder

variable {b : Builder} {threshold : Level}

/-- The requests of a run, each with its reply. -/
def exchanges (threshold : Level) (b : Builder) (requests : List Request) : List Exchange :=
  requests.zipWith Exchange.mk (b.run threshold requests).2

/-- The granted requests for productions in a run. -/
def additions (threshold : Level) (b : Builder) (requests : List Request) : List Addition :=
  (b.exchanges threshold requests).filterMap Exchange.addition?

/-- A run is its first step and the run from there. -/
theorem run_cons (request : Request) (requests : List Request) :
    b.run threshold (request :: requests) =
      (((b.step threshold request).1.run threshold requests).1,
        (b.step threshold request).2 ::
          ((b.step threshold request).1.run threshold requests).2) := rfl

/-- The first exchange of a run is the first request with the reply to it. -/
theorem exchanges_cons (request : Request) (requests : List Request) :
    b.exchanges threshold (request :: requests) =
      ⟨request, (b.step threshold request).2⟩ ::
        (b.step threshold request).1.exchanges threshold requests := rfl

/-! ## Striking out requests -/

/-- A request that is refused or only for a resolution leaves the builder as it is. -/
theorem step_fst_of_not_counts {request : Request}
    (h : Exchange.counts ⟨request, (b.step threshold request).2⟩ = false) :
    (b.step threshold request).1 = b := by
  have he := effect_step threshold b request
  generalize (b.step threshold request).1 = after, (b.step threshold request).2 = reply at he h
  cases he with
  | refused | resolved => rfl
  | added | headed => cases h
  | built ho => simp [Exchange.counts, Reply.error?, Request.isResolve, ho] at h

/-- A request leaves the builder as it is if it is refused, or only for a resolution. -/
theorem step_fst_eq_self {request : Request}
    (h : (b.step threshold request).2.error?.isSome = true ∨ request.isResolve = true) :
    (b.step threshold request).1 = b := by
  refine step_fst_of_not_counts ?_
  rcases h with h | h
  · obtain ⟨e, he⟩ := Option.isSome_iff_exists.mp h
    simp [Exchange.counts, he]
  · simp [Exchange.counts, h]

/-- Without the requests that are refused or only for a resolution a run ends in the same builder,
and the replies to the others are the same. -/
theorem run_counting (threshold : Level) (b : Builder) (requests : List Request) :
    b.run threshold (((b.exchanges threshold requests).filter Exchange.counts).map (·.request)) =
      ((b.run threshold requests).1,
        ((b.exchanges threshold requests).filter Exchange.counts).map (·.reply)) := by
  induction requests generalizing b with
  | nil => rfl
  | cons request requests ih =>
    rw [exchanges_cons, run_cons]
    cases hc : Exchange.counts ⟨request, (b.step threshold request).2⟩ with
    | true => rw [List.filter_cons_of_pos hc, List.map_cons, List.map_cons, run_cons, ih]
    | false =>
      -- the rest of the run starts from the same builder, whether the request was made or not
      rw [List.filter_cons_of_neg (by simp [hc]), step_fst_of_not_counts hc, ih]

/-! ## What a builder holds -/

/-- A request adds at most one production, the one that was asked for. -/
theorem productions_step (threshold : Level) (b : Builder) (request : Request) :
    ∃ added, (b.step threshold request).1.productions = b.productions ++ added ∧
      List.Forall₂ Addition.Makes
        (Exchange.addition? ⟨request, (b.step threshold request).2⟩).toList added := by
  have he := effect_step threshold b request
  generalize (b.step threshold request).1 = after, (b.step threshold request).2 = reply at he ⊢
  cases he with
  | refused hr =>
    refine ⟨[], (List.append_nil _).symm, ?_⟩
    have hn : Exchange.addition? ⟨request, reply⟩ = none := by
      unfold Exchange.addition?
      split
      next he =>
        cases he
        simp [Reply.error?] at hr
      next => rfl
    rw [hn]
    exact .nil
  | @added name location first rest definition _ hne _ hd =>
    exact ⟨_, rfl, .cons ⟨rfl, hne, hd, rfl⟩ .nil⟩
  | headed | built | resolved => exact ⟨[], (List.append_nil _).symm, .nil⟩

/-- A run adds the productions that were asked for and granted, in their order. -/
theorem productions_run (threshold : Level) (b : Builder) (requests : List Request) :
    ∃ added, (b.run threshold requests).1.productions = b.productions ++ added ∧
      List.Forall₂ Addition.Makes (b.additions threshold requests) added := by
  induction requests generalizing b with
  | nil => exact ⟨[], (List.append_nil _).symm, .nil⟩
  | cons request requests ih =>
    obtain ⟨first, hfirst, hmakes⟩ := productions_step threshold b request
    obtain ⟨rest, hrest, hall⟩ := ih (b.step threshold request).1
    refine ⟨first ++ rest, ?_, ?_⟩
    · rw [run_cons, hrest, hfirst, List.append_assoc]
    · have hadditions : b.additions threshold (request :: requests) =
          (Exchange.addition? ⟨request, (b.step threshold request).2⟩).toList ++
            (b.step threshold request).1.additions threshold requests := by
        rw [additions, exchanges_cons, List.filterMap_cons]
        cases Exchange.addition? ⟨request, (b.step threshold request).2⟩ <;> rfl
      rw [hadditions]
      exact List.rel_append hmakes hall

/-- From the start on a builder holds what was asked for and granted. -/
theorem additions_make {language header : Value} (hb : start language header = .ok b)
    (threshold : Level) (requests : List Request) :
    List.Forall₂ Addition.Makes (b.additions threshold requests)
      (b.run threshold requests).1.productions := by
  obtain ⟨added, hadded, hmakes⟩ := productions_run threshold b requests
  obtain ⟨_, _, _, rfl⟩ := start_eq_ok_iff.mp hb
  rw [hadded]
  exact hmakes

/-- Something was handed over under a name and at a location exactly if a production that was made
of it has them. -/
theorem exists_addition_iff {additions : List Addition} {productions : List Production}
    (h : List.Forall₂ Addition.Makes additions productions) {name location : String} :
    (∃ a ∈ additions, a.name = .text name ∧ a.location = location) ↔
      ∃ p ∈ productions, p.name = name ∧ p.location = location := by
  induction h with
  | nil => simp
  | cons hm _ ih =>
    rw [List.exists_mem_cons_iff, List.exists_mem_cons_iff, ih, hm.name_eq, hm.location_eq,
      Value.text.injEq]

/-- What adopting a change answers is an error exactly if the change failed with it. -/
theorem error?_adopt_eq_some_iff {change : Except Error Builder} {e : Error} :
    (b.adopt change).2.error? = some e ↔ change = .error e := by
  cases change <;> simp [adopt, Reply.error?]

/-- Adopting a change answers no error exactly if the change succeeded. -/
theorem error?_adopt_eq_none_iff {change : Except Error Builder} :
    (b.adopt change).2.error? = none ↔ ∃ after, change = .ok after := by
  cases change <;> simp [adopt, Reply.error?]

/-- The requests of a run that are refused, or only for a resolution, might as well never have been
made: a further one of that kind changes nothing, and without all of them the run ends in the same
builder and the others get the same replies. The productions of that builder are those of the
granted requests for them, in their order and each under a name of its own. A further request for
one is granted if name and terms are in order, and a name that is taken is refused with the
location of the granted request. -/
theorem run_erasure {language header : Value} (hb : start language header = .ok b)
    (threshold : Level) (requests : List Request) :
    let last := (b.run threshold requests).1
    let additions := b.additions threshold requests
    let remaining := (b.exchanges threshold requests).filter Exchange.counts
    (∀ request, (last.step threshold request).2.error?.isSome = true ∨ request.isResolve = true →
      (last.step threshold request).1 = last) ∧
    b.run threshold (remaining.map (·.request)) = (last, remaining.map (·.reply)) ∧
    last.names.Nodup ∧ List.Forall₂ Addition.Makes additions last.productions ∧
    (∀ name first rest location,
      (last.step threshold (.add name first rest location)).2.error? = none ↔
        last.built = false ∧ (∃ s, name = .text s ∧ s ≠ "" ∧ s ∉ last.names) ∧
          ∀ v ∈ first :: rest, ∃ t, v = .term t) ∧
    ∀ name first rest location s existing repeated,
      (last.step threshold (.add name first rest location)).2.error? =
          some (.construction (.duplicate s existing repeated)) ↔
        last.built = false ∧ name = .text s ∧ repeated = location ∧
          ∃ a ∈ additions, a.name = .text s ∧ a.location = existing := by
  intro last additions remaining
  have hw : last.WellFormed := ((Reachable.start hb).run threshold requests).wellFormed
  have hmakes : List.Forall₂ Addition.Makes additions last.productions :=
    additions_make hb threshold requests
  refine ⟨fun _ => step_fst_eq_self, run_counting threshold b requests, hw.names_nodup, hmakes,
    fun name first rest location => error?_adopt_eq_none_iff.trans exists_add_iff,
    fun name first rest location s existing repeated => ?_⟩
  rw [exists_addition_iff hmakes]
  refine error?_adopt_eq_some_iff.trans (add_eq_duplicate_iff.trans ?_)
  simp only [hw.find?_eq_some_iff, and_assoc]
  constructor
  · rintro ⟨hopen, hname, _, hlocation, hp⟩
    exact ⟨hopen, hname, hlocation, hp⟩
  · rintro ⟨hopen, hname, hlocation, p, hp, hs, he⟩
    exact ⟨hopen, hname, hs ▸ hw.name_ne_empty p hp, hlocation, p, hp, hs, he⟩

/-- The builder of the sample before any request. -/
def unfilled : Builder := ⟨"sums", .text "", [], false⟩

/-- The builder of the sample is one that can be started. -/
theorem start_unfilled : start (.text "sums") (.text "") = .ok unfilled :=
  start_eq_ok_iff.mpr ⟨"sums", rfl, by decide, rfl⟩

/-- The requests of the sample among others that are refused or only for a resolution. -/
def troubledRequests : List Request :=
  .build [] :: .add (.text "") (.term .epsilon) [] "trouble:1" :: sampleRequests ++
    [.add (.text "sum") .null [] "trouble:2", .resolve [.resolution .skipUnused],
      .add (.text "word") (.term .epsilon) [.null] "trouble:3", .build [.value (.list [])]]

/-- Without the requests that are refused or only for a resolution those of the sample are left and
make the same builder, which refuses a second sum with the location of the first. -/
theorem run_erasure_sample :
    start (.text "sums") (.text "") = .ok unfilled ∧
      (∃ replies, unfilled.run .debug sampleRequests =
        ((unfilled.run .debug troubledRequests).1, replies)) ∧
      ((unfilled.run .debug troubledRequests).1.step .debug
        (.add (.text "sum") .null [] "trouble:4")).2.error? =
          some (.construction (.duplicate "sum" "sample:1" "trouble:4")) := by
  obtain ⟨_, herased, _, hmakes, _, hduplicate⟩ :=
    run_erasure start_unfilled .debug troubledRequests
  have hremaining : ((unfilled.exchanges .debug troubledRequests).filter Exchange.counts).map
      (·.request) = sampleRequests := by
    -- asked first whether it is for a resolution, a request need not be resolved
    have hcounts : Exchange.counts = fun x => !x.request.isResolve && x.reply.error?.isNone :=
      funext fun _ => Bool.and_comm _ _
    rw [hcounts]
    rfl
  rw [hremaining] at herased
  refine ⟨start_unfilled, ⟨_, herased⟩, (hduplicate _ _ _ _ _ _ _).mpr ⟨rfl, rfl, rfl, ?_⟩⟩
  exact (exists_addition_iff hmakes).mpr ⟨_, List.mem_of_getElem? (i := 0) rfl, rfl, rfl⟩

end Builder

end FormalGrammar

import FormalGrammar.Proofs.Erasure
import FormalGrammar.Proofs.Settings

/-!
# A build closes a builder

A build that succeeds closes a builder, and nothing else does. From then on
requests for productions and headers are refused because of it, before anything
else about them is looked at. What the builder holds stays as it is, so that
resolutions under the same options give the same again.
-/

namespace FormalGrammar

/-- Whether an error is that the grammar has been built. -/
def ConstructionError.SaysBuilt : ConstructionError → Prop
  | .headerClosed _ | .productionsClosed .. => True
  | _ => False

/-- Whether a request was refused because the grammar has been built. -/
def Reply.SaysBuilt (reply : Reply) : Prop :=
  ∃ cause, reply.error? = some (.construction cause) ∧ cause.SaysBuilt

/-- Whether an exchange is a build that succeeded. -/
def Exchange.Builds : Exchange → Prop
  | ⟨.build _, reply⟩ => reply.error? = none
  | _ => False

/-- The settings of a request to resolve a builder, whether it is closed thereby or not. -/
def Request.settings? : Request → Option (List Setting)
  | .build settings | .resolve settings => some settings
  | .add .. | .setHeader _ => none

/-- Whether two lists of settings make the same set of options. Settings that cannot be members of
a set make none, and are only compared with themselves. -/
def Setting.SameOptions (settings others : List Setting) : Prop :=
  settings = others ∨ Hashable settings ∧ Hashable others ∧
    ∀ o, .resolution o ∈ settings ↔ .resolution o ∈ others

/-- The same options are read as the same policy. -/
theorem Setting.SameOptions.ofSettings_eq {settings others : List Setting}
    (h : SameOptions settings others) : Policy.ofSettings settings = Policy.ofSettings others := by
  rcases h with rfl | ⟨hs, ho, hsame⟩
  · rfl
  · obtain ⟨policy, hp⟩ := hs.exists_policy
    rw [hp, eq_comm, Policy.ofSettings_eq_ok_iff]
    exact ⟨ho, fun o => ((Policy.ofSettings_eq_ok_iff.mp hp).2 o).trans (hsame o)⟩

namespace Builder

variable {b : Builder} {threshold : Level}

/-- Whether a build succeeds in a run. -/
def HasBuilt (threshold : Level) (b : Builder) (requests : List Request) : Prop :=
  ∃ x ∈ b.exchanges threshold requests, x.Builds

/-- No request changes the language. -/
theorem language_step (request : Request) :
    (b.step threshold request).1.language = b.language := by
  have he := effect_step threshold b request
  generalize (b.step threshold request).1 = after, (b.step threshold request).2 = reply at he ⊢
  cases he <;> rfl

/-- No run changes the language. -/
theorem language_run (requests : List Request) :
    (b.run threshold requests).1.language = b.language := by
  induction requests generalizing b with
  | nil => rfl
  | cons request requests ih => rw [run_cons, ih, language_step]

/-- A request closes a builder exactly if it is a build that succeeds. -/
theorem built_step_iff {request : Request} :
    (b.step threshold request).1.built = true ↔
      b.built = true ∨ Exchange.Builds ⟨request, (b.step threshold request).2⟩ := by
  have he := effect_step threshold b request
  generalize (b.step threshold request).1 = after, (b.step threshold request).2 = reply at he ⊢
  cases he with
  | refused hr => cases request <;> simp [Exchange.Builds, hr]
  | built ho => simp [Exchange.Builds, Reply.error?, ho]
  | added | headed | resolved => simp [Exchange.Builds]

/-- A run closes a builder exactly if a build succeeds in it. -/
theorem built_run_iff {requests : List Request} :
    (b.run threshold requests).1.built = true ↔
      b.built = true ∨ b.HasBuilt threshold requests := by
  induction requests generalizing b with
  | nil => simp [run, HasBuilt, exchanges]
  | cons request requests ih =>
    rw [run_cons, ih, built_step_iff, or_assoc, HasBuilt, HasBuilt, exchanges_cons,
      List.exists_mem_cons_iff]

/-- A build that succeeds does nothing but close the builder. -/
theorem step_fst_of_builds {request : Request}
    (h : Exchange.Builds ⟨request, (b.step threshold request).2⟩) :
    (b.step threshold request).1 = { b with built := true } := by
  have he := effect_step threshold b request
  generalize (b.step threshold request).1 = after, (b.step threshold request).2 = reply at he h ⊢
  cases he with
  | refused hr => cases request <;> simp [Exchange.Builds, hr] at h
  | built => rfl
  | added | headed | resolved => exact h.elim

/-- A closed builder stays as it is, whatever is requested. -/
theorem step_fst_of_built (h : b.built = true) (request : Request) :
    (b.step threshold request).1 = b := by
  have he := effect_step threshold b request
  generalize (b.step threshold request).1 = after, (b.step threshold request).2 = reply at he ⊢
  cases he with
  | refused | resolved => rfl
  | added hopen | headed hopen =>
    rw [h] at hopen
    cases hopen
  | built => rw [← h]

/-- A closed builder stays as it is through any run. -/
theorem run_fst_of_built (h : b.built = true) (requests : List Request) :
    (b.run threshold requests).1 = b := by
  induction requests with
  | nil => rfl
  | cons request requests ih => rw [run_cons, step_fst_of_built h, ih]

/-- A request for a production is refused because of a build exactly by a closed builder. -/
theorem saysBuilt_add_iff {name first : Value} {rest : List Value} {location : String} :
    (b.step threshold (.add name first rest location)).2.SaysBuilt ↔ b.built = true := by
  constructor
  · rintro ⟨cause, he, hsays⟩
    by_contra hopen
    rcases error_of_add (eq_false_of_ne_true hopen) (error?_adopt_eq_some_iff.mp he) with
      he | ⟨_, _, _, _, _, he⟩ | ⟨_, _, he⟩ <;> cases he <;> exact hsays
  · intro h
    exact ⟨_, error?_adopt_eq_some_iff.mpr (add_of_built h name first rest location), trivial⟩

/-- A request for a header is refused because of a build exactly by a closed builder. -/
theorem saysBuilt_setHeader_iff {header : Value} :
    (b.step threshold (.setHeader header)).2.SaysBuilt ↔ b.built = true := by
  constructor
  · rintro ⟨cause, he, _⟩
    by_contra hopen
    have hok := setHeader_eq_ok_iff.mpr
      ⟨eq_false_of_ne_true hopen, (rfl : _ = { b with header })⟩
    rw [error?_adopt_eq_some_iff.mp he] at hok
    cases hok
  · intro h
    exact ⟨_, error?_adopt_eq_some_iff.mpr (setHeader_of_built h header), trivial⟩

/-- What is asked for with the same options is answered the same by builders that differ at most in
whether they are closed. -/
theorem step_snd_eq_of_sameOptions {request other : Request} {settings others : List Setting}
    (hr : request.settings? = some settings) (ho : other.settings? = some others)
    (h : Setting.SameOptions settings others) (built built' : Bool) :
    (step threshold { b with built } request).2 =
      (step threshold { b with built := built' } other).2 := by
  -- a resolution does not look at whether the builder is closed
  have hanswer {built : Bool} {request : Request} {settings : List Setting}
      (hr : request.settings? = some settings) :
      (step threshold { b with built } request).2 =
        .resolution (b.resolve threshold settings) := by
    cases request <;> cases hr
    · exact congrArg Reply.resolution (build_snd threshold settings _)
    · rfl
  rw [hanswer hr, hanswer ho, resolve, resolve, h.ofSettings_eq]

/-- Requests for productions and headers are refused because the grammar has been built exactly if
a build has succeeded before, whatever else is wrong with them. From a build that succeeds on
nothing changes any more, and whenever the same options are asked for, the reply is the same,
also if it is that to the build itself. -/
theorem closed_iff_built {language header : Value} (hb : start language header = .ok b)
    (threshold : Level) (requests : List Request) :
    let here := (b.run threshold requests).1
    (∀ name first rest location,
      ((here.step threshold (.add name first rest location)).2.SaysBuilt ↔
        b.HasBuilt threshold requests) ∧
      (b.HasBuilt threshold requests → (here.step threshold (.add name first rest location)).2 =
        .changed (reject (.productionsClosed name b.language)))) ∧
    (∀ value,
      ((here.step threshold (.setHeader value)).2.SaysBuilt ↔ b.HasBuilt threshold requests) ∧
      (b.HasBuilt threshold requests → (here.step threshold (.setHeader value)).2 =
        .changed (reject (.headerClosed b.language)))) ∧
    ∀ settings, Exchange.Builds ⟨.build settings, (here.step threshold (.build settings)).2⟩ →
      ∀ between,
        let later := ((here.step threshold (.build settings)).1.run threshold between).1
        later.header = here.header ∧ later.productions = here.productions ∧
        ∀ request others, request.settings? = some others →
          (Setting.SameOptions others settings →
            (later.step threshold request).2 = (here.step threshold (.build settings)).2) ∧
          ∀ further request' others', request'.settings? = some others' →
            Setting.SameOptions others others' →
              ((later.run threshold further).1.step threshold request').2 =
                (later.step threshold request).2 := by
  intro here
  have hlanguage : here.language = b.language := language_run requests
  have hclosed : here.built = true ↔ b.HasBuilt threshold requests := by
    obtain ⟨_, _, _, rfl⟩ := start_eq_ok_iff.mp hb
    exact built_run_iff.trans (or_iff_right Bool.false_ne_true)
  refine ⟨fun name first rest location => ⟨saysBuilt_add_iff.trans hclosed, fun h => ?_⟩,
    fun value => ⟨saysBuilt_setHeader_iff.trans hclosed, fun h => ?_⟩,
    fun settings hs between => ?_⟩
  · simp only [step, add_of_built (hclosed.mpr h), reject, adopt, hlanguage]
  · simp only [step, setHeader_of_built (hclosed.mpr h), reject, adopt, hlanguage]
  intro later
  have hlater : later = { here with built := true } := by
    have hstep := step_fst_of_builds hs
    have hbuilt : (here.step threshold (.build settings)).1.built = true := by rw [hstep]
    exact (run_fst_of_built hbuilt between).trans hstep
  rw [hlater]
  refine ⟨rfl, rfl, fun request others hr => ⟨fun hsame => ?_, ?_⟩⟩
  · exact step_snd_eq_of_sameOptions hr rfl hsame true here.built
  · intro further request' others' hr' hsame
    rw [run_fst_of_built rfl]
    exact (step_snd_eq_of_sameOptions hr hr' hsame true true).symm

/-- A build of the sample that leaves out unused productions closes it. The header is refused from
then on, and a resolution under the same option repeats the reply to the build. -/
theorem closed_iff_built_sample :
    start (.text "sums") (.text "") = .ok unfilled ∧
      unfilled.HasBuilt .debug (sampleRequests ++ [.build [.resolution .skipUnused]]) ∧
      ((unfilled.run .debug (sampleRequests ++ [.build [.resolution .skipUnused]])).1.step .debug
        (.setHeader .null)).2 = .changed (reject (.headerClosed "sums")) ∧
      Exchange.Builds ⟨.build [.resolution .skipUnused],
        (sample.step .debug (.build [.resolution .skipUnused])).2⟩ ∧
      ∀ between, (((sample.step .debug (.build [.resolution .skipUnused])).1.run .debug
          between).1.step .debug (.resolve [.value (.int 1), .resolution .skipUnused])).2 =
        (sample.step .debug (.build [.resolution .skipUnused])).2 := by
  have hbuilds : Exchange.Builds ⟨.build [.resolution .skipUnused],
      (sample.step .debug (.build [.resolution .skipUnused])).2⟩ := by
    simp only [Exchange.Builds, step, build_snd]
    cbv
  have hbuilt : unfilled.HasBuilt .debug
      (sampleRequests ++ [.build [.resolution .skipUnused]]) :=
    ⟨_, List.mem_of_getElem? (i := 5) rfl, hbuilds⟩
  have hsame : Setting.SameOptions [.value (.int 1), .resolution .skipUnused]
      [.resolution .skipUnused] := by
    refine Or.inr ⟨?_, ?_, ?_⟩ <;> simp [Setting.Hashable, Value.unhashable?]
  obtain ⟨_, hheader, _⟩ := closed_iff_built start_unfilled .debug
    (sampleRequests ++ [.build [.resolution .skipUnused]])
  obtain ⟨_, _, hlater⟩ := closed_iff_built start_unfilled .debug sampleRequests
  refine ⟨start_unfilled, hbuilt, (hheader .null).2 hbuilt, hbuilds, fun between => ?_⟩
  exact ((hlater _ hbuilds between).2.2 _ _ rfl).1 hsame

end Builder

end FormalGrammar

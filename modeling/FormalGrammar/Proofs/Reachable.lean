import FormalGrammar.Proofs.Requests
import Mathlib.Data.List.Nodup

/-!
# The builders that can come about

A builder is started for a language and then gets requests. Whatever they are,
its language has a name, its productions have names, and no two of them have
the same one.
-/

namespace FormalGrammar.Builder

/-- The builders that can come about: those that were started, after any requests. -/
inductive Reachable : Builder → Prop
  | start {language header : Value} {b : Builder} :
      Builder.start language header = .ok b → Reachable b
  | step {b : Builder} (threshold : Level) (request : Request) :
      Reachable b → Reachable (b.step threshold request).1

/-- A builder can come about if it is what requests make of one that can. -/
theorem Reachable.run {b : Builder} (h : b.Reachable) (threshold : Level)
    (requests : List Request) : (b.run threshold requests).1.Reachable := by
  induction requests generalizing b with
  | nil => exact h
  | cons request requests ih => exact ih (h.step threshold request)

/-- Requests for a language of sums with blanks and comments that its sums do not mention. -/
def sampleRequests : List Request :=
  [.add (.text "sum") (.term (.sequence (.nonTerminal "number")
      [.optional (.sequence (.literal "+" (.bool true)) [.nonTerminal "sum"])])) [] "sample:1",
    .add (.text "number") (.term (.repetition (.characterSet "DIGIT" []) 1 none)) [] "sample:2",
    .add (.text "comment") (.term (.nonTerminal "note")) [.term .epsilon] "sample:3",
    .add (.text "note") (.term (.sequence (.literal "#" (.bool true)) [.nonTerminal "comment"])) []
      "sample:4",
    .add (.text "blank") (.term (.characterSet "SPACE" [])) [] "sample:5"]

/-- A builder with a reference to itself, a cycle apart from the first production, and a production
of top level. -/
def sample : Builder := ((Builder.mk "sums" (.text "") [] false).run .debug sampleRequests).1

/-- The sample comes about by its requests. -/
theorem sample_reachable : sample.Reachable :=
  (Reachable.start (start_eq_ok_iff.mpr ⟨"sums", rfl, by decide, rfl⟩)).run .debug sampleRequests

/-- What requests cannot break: language and productions have names, and names are not shared. -/
structure WellFormed (b : Builder) : Prop where
  language_ne_empty : b.language ≠ ""
  names_nodup : b.names.Nodup
  name_ne_empty : ∀ p ∈ b.productions, p.name ≠ ""

namespace WellFormed

variable {b : Builder}

/-- A builder is well formed when it is started. -/
theorem start {language header : Value} (h : Builder.start language header = .ok b) :
    b.WellFormed := by
  obtain ⟨name, _, hn, rfl⟩ := start_eq_ok_iff.mp h
  exact ⟨hn, List.nodup_nil, fun p hp => by cases hp⟩

/-- Where names are not shared, a production is found under its name. -/
theorem find?_eq_some_iff (h : b.WellFormed) {name : String} {p : Production} :
    b.find? name = some p ↔ p ∈ b.productions ∧ p.name = name := by
  have hname {q : Production} (hq : b.find? name = some q) : q.name = name := by
    simpa using List.find?_some hq
  constructor
  · intro hf
    exact ⟨List.mem_of_find?_eq_some hf, hname hf⟩
  · rintro ⟨hp, hn⟩
    cases hf : b.find? name with
    | none => exact absurd hn (find?_eq_none_iff.mp hf p hp)
    | some q =>
      have hq : q ∈ b.productions := List.mem_of_find?_eq_some hf
      rw [List.inj_on_of_nodup_map h.names_nodup hq hp ((hname hf).trans hn.symm)]

/-- Any request leaves a builder well formed, whether it is granted or refused. -/
theorem step (h : b.WellFormed) (threshold : Level) (request : Request) :
    (b.step threshold request).1.WellFormed := by
  have he := effect_step threshold b request
  generalize (b.step threshold request).1 = after, (b.step threshold request).2 = reply at he
  cases he with
  | refused | resolved => exact h
  | headed | built => exact ⟨h.language_ne_empty, h.names_nodup, h.name_ne_empty⟩
  | @added name location first rest definition _ hs hfree _ =>
    refine ⟨h.language_ne_empty, ?_, ?_⟩
    · simpa [names] using h.names_nodup.concat (not_mem_names_iff.mpr hfree)
    · intro p hp
      rcases List.mem_append.mp hp with hp | hp
      · exact h.name_ne_empty p hp
      · rw [List.mem_singleton.mp hp]
        exact hs

end WellFormed

/-- Every builder that can come about is well formed. -/
theorem Reachable.wellFormed {b : Builder} (h : b.Reachable) : b.WellFormed := by
  induction h with
  | start hs => exact .start hs
  | step threshold request _ ih => exact ih.step threshold request

end FormalGrammar.Builder

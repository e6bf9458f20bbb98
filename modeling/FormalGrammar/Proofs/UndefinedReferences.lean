import FormalGrammar.Proofs.Evaluation
import FormalGrammar.Proofs.FixedPoint
import FormalGrammar.Proofs.ReferenceOrder

/-!
# Undefined references

A resolution that fails for undefined references lists all of them, once each:
the productions in their order, and for each of them the names without a
production in the order in which its definition mentions them first. A builder
is repaired by giving every one of these names a literal as its definition.
-/

namespace FormalGrammar

/-- Whether all terms that a request hands over are well formed, as those are that were made. -/
def Request.WellFormed : Request → Prop
  | .add _ first rest _ => ∀ v ∈ first :: rest, v.WellFormed
  | .setHeader _ | .build _ | .resolve _ => True

instance : (request : Request) → Decidable request.WellFormed
  | .add _ first rest _ => inferInstanceAs (Decidable (∀ v ∈ first :: rest, v.WellFormed))
  | .setHeader _ | .build _ | .resolve _ => .isTrue trivial

/-! ## The list of missing references -/

/-- Leaving out what has been there before leaves nothing twice. -/
theorem nodup_eraseDups (names : List String) : names.eraseDups.Nodup := by
  induction names using List.reverseRecOn with
  | nil => exact List.nodup_nil
  | append_singleton names last ih =>
    rw [List.eraseDups_append]
    by_cases h : last ∈ names
    · have hnone : [last].removeAll names = [] := by simp [List.removeAll, h]
      rw [hnone, List.eraseDups_nil, List.append_nil]
      exact ih
    · have hone : ([last].removeAll names).eraseDups = [last] := by
        simp [List.removeAll, h, List.eraseDups_cons]
      rw [hone]
      simpa using ih.concat (mt List.mem_eraseDups.mp h)

/-- The missing names are those that occur in the pairs. -/
theorem mem_missingNames {missing : List (String × String)} {name : String} :
    name ∈ missingNames missing ↔ ∃ referrer, (referrer, name) ∈ missing := by
  rw [missingNames, (List.mergeSort_perm _ _).mem_iff, List.mem_eraseDups, List.mem_map]
  constructor
  · rintro ⟨⟨referrer, _⟩, hm, rfl⟩
    exact ⟨referrer, hm⟩
  · rintro ⟨referrer, hm⟩
    exact ⟨_, hm, rfl⟩

/-- No missing name is listed twice. -/
theorem nodup_missingNames (missing : List (String × String)) : (missingNames missing).Nodup :=
  (List.mergeSort_perm _ _).nodup_iff.mpr (nodup_eraseDups _)

namespace Production

/-- Whether one pair of a referrer and a name comes before another in the order of the productions
or, for the same referrer, in the order in which its definition mentions the names first. -/
def MentionedBefore (productions : List Production) (x y : String × String) : Prop :=
  (productions.map (·.name)).idxOf x.1 < (productions.map (·.name)).idxOf y.1 ∨
    ∃ p ∈ productions, p.name = x.1 ∧ p.name = y.1 ∧
      p.definition.occurrences.idxOf x.2 < p.definition.occurrences.idxOf y.2

/-- No pair comes before itself. -/
theorem not_mentionedBefore_self (productions : List Production) (x : String × String) :
    ¬ MentionedBefore productions x x := by
  rintro (h | ⟨p, _, _, _, h⟩) <;> exact Nat.lt_irrefl _ h

end Production

open Production (Closed MentionedBefore)

namespace ReferenceGraph

variable {productions : List Production}

/-- Names that are not repeated stand in the order of their positions. -/
theorem pairwise_idxOf {names : List String} (h : names.Nodup) :
    names.Pairwise fun a b => names.idxOf a < names.idxOf b := by
  rw [List.pairwise_iff_getElem]
  intro i j hi hj hij
  rw [h.idxOf_getElem, h.idxOf_getElem]
  exact hij

/-- The missing references are listed production by production. -/
theorem missing_ofProductions (productions : List Production) :
    (ofProductions productions).missing = productions.flatMap fun p =>
      (p.references.filter fun name => !(productions.map (·.name)).contains name).map fun name =>
        (p.name, name) := by
  rw [missing, names_ofProductions]
  simp only [ofProductions, List.flatMap_map]

/-- The missing references are listed in the order in which they are mentioned. -/
theorem pairwise_missing_ofProductions (hn : (productions.map (·.name)).Nodup) :
    (ofProductions productions).missing.Pairwise (MentionedBefore productions) := by
  rw [missing_ofProductions, List.pairwise_flatMap]
  constructor
  · intro p hp
    have hordered := (inFirstOrder_firstOccurrences p.definition.occurrences).ordered
    rw [← Term.references_eq] at hordered
    refine List.pairwise_map.mpr ((hordered.filter _).imp fun hlt => ?_)
    exact Or.inr ⟨p, hp, rfl, rfl, hlt⟩
  · refine (List.pairwise_map.mp (pairwise_idxOf hn)).imp fun hlt x hx y hy => ?_
    obtain ⟨_, _, rfl⟩ := List.mem_map.mp hx
    obtain ⟨_, _, rfl⟩ := List.mem_map.mp hy
    exact Or.inl hlt

end ReferenceGraph

namespace Builder

variable {b : Builder} {threshold : Level} {settings : List Setting}

/-- The verdict is never about undefined references. -/
theorem verdict_ne_undefined {missing : List (String × String)} :
    b.verdict settings ≠ .error (.resolution (.undefined missing)) := by
  unfold verdict
  split <;> (repeat' split) <;> simp

/-- A resolution fails for undefined references exactly if its settings can be members of a set and
there are such references, and then it lists those that the graph misses. -/
theorem resolve_eq_undefined_iff (hb : b.WellFormed) {missing : List (String × String)} :
    (b.resolve threshold settings).outcome = .error (.resolution (.undefined missing)) ↔
      Setting.Hashable settings ∧ ¬ Closed b.productions ∧
        missing = (ReferenceGraph.ofProductions b.productions).missing := by
  constructor
  · intro h
    have hs := hashable_of_resolution_error h
    by_cases hc : Closed b.productions
    · rw [resolve_of_closed hb hs hc] at h
      exact absurd h verdict_ne_undefined
    · rw [resolve_of_not_closed hs hc] at h
      cases h
      exact ⟨hs, hc, rfl⟩
  · rintro ⟨hs, hc, rfl⟩
    exact resolve_of_not_closed hs hc

/-! ## Repairing a builder -/

/-- A request with well-formed terms leaves well-formed definitions. -/
theorem definition_wellFormed_step (h : ∀ p ∈ b.productions, p.definition.WellFormed)
    {request : Request} (hr : request.WellFormed) :
    ∀ p ∈ (b.step threshold request).1.productions, p.definition.WellFormed := by
  have he := effect_step threshold b request
  generalize (b.step threshold request).1 = after, (b.step threshold request).2 = reply at he
  cases he with
  | refused | headed | built | resolved => exact h
  | @added name location first rest definition _ _ _ hd =>
    obtain ⟨t, ts, rfl, rfl, rfl⟩ := Term.choiceOf_eq_ok_iff.mp hd
    have hterms : ∀ u ∈ t :: ts, u.WellFormed := fun u hu =>
      hr (.term u) (List.mem_map_of_mem hu) u (List.mem_singleton_self u)
    refine List.forall_mem_append.mpr ⟨h, List.forall_mem_singleton.mpr ?_⟩
    exact (Term.grownFrom_orElse t ts).wellFormed hterms

/-- Requests with well-formed terms leave well-formed definitions. -/
theorem definition_wellFormed_run (h : ∀ p ∈ b.productions, p.definition.WellFormed)
    {requests : List Request} (hr : ∀ request ∈ requests, request.WellFormed) :
    ∀ p ∈ (b.run threshold requests).1.productions, p.definition.WellFormed := by
  induction requests generalizing b with
  | nil => exact h
  | cons request requests ih =>
    rw [List.forall_mem_cons] at hr
    exact ih (definition_wellFormed_step h hr.1) hr.2

/-- The production that gives a name a literal as its definition. -/
def patch (literal : String → String × Value) (place : String → String) (name : String) :
    Production :=
  ⟨name, .literal (literal name).1 (literal name).2, place name⟩

/-- The requests that give names productions, each with a literal as its definition. -/
def repairs (literal : String → String × Value) (place : String → String)
    (names : List String) : List Request :=
  names.map fun name =>
    .add (.text name) (.term (.literal (literal name).1 (literal name).2)) [] (place name)

variable {literal : String → String × Value} {place : String → String} {names : List String}

/-- With literals for all missing names nothing is missing any more. -/
theorem closed_repaired {productions : List Production}
    (hnames : names.Perm (missingNames (ReferenceGraph.ofProductions productions).missing)) :
    Closed (productions ++ names.map (patch literal place)) := by
  intro p hp name hr
  rcases List.mem_append.mp hp with hp | hp
  · by_cases hd : ∃ q ∈ productions, q.name = name
    · obtain ⟨q, hq, he⟩ := hd
      exact ⟨q, List.mem_append_left _ hq, he⟩
    · have hm : (p.name, name) ∈ (ReferenceGraph.ofProductions productions).missing :=
        ReferenceGraph.mem_missing_ofProductions.mpr
          ⟨p, hp, rfl, hr, fun q hq he => hd ⟨q, hq, he⟩⟩
      have hname : name ∈ names := hnames.mem_iff.mpr (mem_missingNames.mpr ⟨_, hm⟩)
      exact ⟨patch literal place name,
        List.mem_append_right _ (List.mem_map_of_mem hname), rfl⟩
  · -- a literal has no references
    obtain ⟨_, _, rfl⟩ := List.mem_map.mp hp
    simp [patch, Production.RefersTo, Term.nodes] at hr

/-- An open builder accepts literals for all names that are missing in it. -/
theorem run_repairs (threshold : Level) (literal : String → String × Value)
    (place : String → String) (hb : b.WellFormed) (hopen : b.built = false)
    (hd : ∀ p ∈ b.productions, p.definition.WellFormed)
    (hnames : names.Perm (missingNames (ReferenceGraph.ofProductions b.productions).missing)) :
    b.run threshold (repairs literal place names) =
      ({ b with productions := b.productions ++ names.map (patch literal place) },
        names.map fun _ => .changed (.ok ())) := by
  have hmissing : ∀ name ∈ names, ∃ p ∈ b.productions, p.RefersTo name ∧ name ∉ b.names := by
    intro name hname
    obtain ⟨referrer, hm⟩ := mem_missingNames.mp (hnames.mem_iff.mp hname)
    obtain ⟨p, hp, _, hr, hfree⟩ := ReferenceGraph.mem_missing_ofProductions.mp hm
    exact ⟨p, hp, hr, not_mem_names_iff.mpr hfree⟩
  have hentered : (names.map (patch literal place)).map (·.name) = names := by
    rw [List.map_map]
    exact List.map_id names
  have hfresh : (b.names ++ (names.map (patch literal place)).map (·.name)).Nodup := by
    rw [hentered]
    refine hb.names_nodup.append (hnames.nodup_iff.mpr (nodup_missingNames _)) ?_
    intro name hold hname
    obtain ⟨_, _, _, hfree⟩ := hmissing name hname
    exact hfree hold
  have hne : ∀ q ∈ names.map (patch literal place), q.name ≠ "" := by
    intro q hq
    obtain ⟨name, hname, rfl⟩ := List.mem_map.mp hq
    obtain ⟨p, hp, hr, _⟩ := hmissing name hname
    exact hd p hp _ hr
  have hrun := run_reentry threshold (·.location) hopen hfresh hne
  have hsame : reentry (·.location) (names.map (patch literal place)) =
      repairs literal place names := List.map_map
  have hunmoved : (names.map (patch literal place)).map (Production.moved (·.location)) =
      names.map (patch literal place) := List.map_map
  rw [hsame, hunmoved, List.map_map] at hrun
  exact hrun

/-- A resolution that fails for undefined references lists the pairs of a production, in use or
not, and a name that its definition mentions and that no production has: each pair once, in the
order of the productions and, for each, in the order of first mention. If the builder is open, it
accepts literals for the names in these pairs, given in any order and each once, and afterwards no
resolution under any options fails for undefined references. -/
theorem undefined_exact {language header : Value} (hstart : start language header = .ok b)
    {requests : List Request} (hrequests : ∀ request ∈ requests, request.WellFormed) :
    let last := (b.run threshold requests).1
    ∀ settings missing,
      (last.resolve threshold settings).outcome = .error (.resolution (.undefined missing)) →
      (∀ referrer name, (referrer, name) ∈ missing ↔
        ∃ p ∈ last.productions, p.name = referrer ∧ .nonTerminal name ∈ p.definition.nodes ∧
          name ∉ last.names) ∧
      missing.Nodup ∧ missing.Pairwise (MentionedBefore last.productions) ∧
      (last.built = false → ∀ names, names.Perm (missingNames missing) → ∀ literal place,
        (last.run threshold (repairs literal place names)).2 =
            names.map (fun _ => .changed (.ok ())) ∧
          ∀ again others undefined,
            ((last.run threshold (repairs literal place names)).1.resolve again others).outcome ≠
              .error (.resolution (.undefined undefined))) := by
  intro last settings missing herror
  have hreachable : last.Reachable := (Reachable.start hstart).run threshold requests
  have hw : last.WellFormed := hreachable.wellFormed
  obtain ⟨_, _, rfl⟩ := (resolve_eq_undefined_iff hw).mp herror
  have hordered := ReferenceGraph.pairwise_missing_ofProductions hw.names_nodup
  refine ⟨fun referrer name => ?_, hordered.imp fun hbefore he => ?_, hordered, ?_⟩
  · rw [ReferenceGraph.mem_missing_ofProductions, not_mem_names_iff]
    rfl
  · subst he
    exact Production.not_mentionedBefore_self _ _ hbefore
  · intro hopen names hnames literal place
    have hempty : ∀ p ∈ b.productions, p.definition.WellFormed := by
      obtain ⟨_, _, _, rfl⟩ := start_eq_ok_iff.mp hstart
      exact List.forall_mem_nil _
    have hd : ∀ p ∈ last.productions, p.definition.WellFormed :=
      definition_wellFormed_run hempty hrequests
    have hrun := run_repairs threshold literal place hw hopen hd hnames
    refine ⟨congrArg Prod.snd hrun, fun again others undefined hagain => ?_⟩
    have hrepaired := (hreachable.run threshold (repairs literal place names)).wellFormed
    obtain ⟨_, hopened, _⟩ := (resolve_eq_undefined_iff hrepaired).mp hagain
    rw [hrun] at hopened
    exact hopened (closed_repaired hnames)

/-- Requests for sums and comments that leave numbers, notes and blanks without productions. -/
def fragmentRequests : List Request :=
  [.add (.text "sum") (.term (.sequence (.nonTerminal "number")
      [.optional (.sequence (.literal "+" (.bool true)) [.nonTerminal "sum"])])) [] "fragment:1",
    .add (.text "comment") (.term (.sequence (.nonTerminal "note")
      [.repetition (.alternatives (.nonTerminal "blank") [.nonTerminal "number"]) 0 none]))
      [.term (.nonTerminal "note")] "fragment:2"]

/-- The builder that these requests make. -/
def fragment : Builder := ((Builder.mk "sums" (.text "") [] false).run .debug fragmentRequests).1

/-- The fragment is begun as a builder for sums. -/
theorem start_fragment : start (.text "sums") (.text "") = .ok ⟨"sums", .text "", [], false⟩ :=
  start_eq_ok_iff.mpr ⟨"sums", rfl, by decide, rfl⟩

/-- What is missing there. -/
def fragmentReferences : List (String × String) :=
  [("sum", "number"), ("comment", "note"), ("comment", "blank"), ("comment", "number")]

/-- The resolution of the fragment reports what is missing there, although only sums are in use. -/
theorem resolve_fragment : (fragment.resolve .debug [.resolution .skipUnused]).outcome =
    .error (.resolution (.undefined fragmentReferences)) := by
  have hmissing : (ReferenceGraph.ofProductions fragment.productions).missing =
      fragmentReferences := by
    rw [ReferenceGraph.missing_ofProductions]
    simp only [Production.references, Term.references_eq]
    decide
  have hclosed : ¬ Closed fragment.productions := by
    rw [← ReferenceGraph.missing_ofProductions_eq_nil_iff, hmissing]
    exact List.cons_ne_nil _ _
  have hw : fragment.WellFormed :=
    ((Reachable.start start_fragment).run .debug fragmentRequests).wellFormed
  have hsettings : Setting.Hashable [.resolution .skipUnused] := by simp [Setting.Hashable]
  exact (resolve_eq_undefined_iff hw).mpr ⟨hsettings, hclosed, hmissing.symm⟩

/-- The fragment accepts literals for what is missing there, and then nothing is. -/
theorem undefined_exact_sample :
    start (.text "sums") (.text "") = .ok ⟨"sums", .text "", [], false⟩ ∧
      (∀ request ∈ fragmentRequests, request.WellFormed) ∧
      (fragment.resolve .debug [.resolution .skipUnused]).outcome =
        .error (.resolution (.undefined fragmentReferences)) ∧
      fragment.built = false ∧ ["note", "number", "blank"].Perm (missingNames fragmentReferences) ∧
      (fragment.run .debug (repairs (fun name => (name, .bool true)) (fun _ => "again")
        ["note", "number", "blank"])).2 =
          [.changed (.ok ()), .changed (.ok ()), .changed (.ok ())] := by
  have hrequests : ∀ request ∈ fragmentRequests, request.WellFormed := by decide
  have hlisted : ["note", "number", "blank"].Perm (fragmentReferences.map (·.2)).eraseDups := by
    decide
  have hnames : ["note", "number", "blank"].Perm (missingNames fragmentReferences) :=
    hlisted.trans (List.mergeSort_perm _ _).symm
  obtain ⟨_, _, _, hrepair⟩ := undefined_exact start_fragment hrequests _ _ resolve_fragment
  exact ⟨start_fragment, hrequests, resolve_fragment, rfl, hnames,
    (hrepair rfl _ hnames _ _).1⟩

end Builder

end FormalGrammar

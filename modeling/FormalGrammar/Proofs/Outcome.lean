import FormalGrammar.Proofs.Kept
import FormalGrammar.Proofs.ProductionGraph
import FormalGrammar.Proofs.Reachable

/-!
# The outcome of a resolution

Which grammar or which error a resolution comes to, said by the productions in
use and by the options among the settings. The order of the checks is part of
it: undefined references decide before a missing root, and both before unused
productions. Leaving out unused productions wins over keeping them.
-/

namespace FormalGrammar

/-- Whether a grammar is that of a builder with just the given productions: it has the language and
the header of the builder, the productions in their order under their names, and the first of them
as its root. -/
structure Grammar.ConsistsOf (g : Grammar) (b : Builder) (given : List Production) : Prop where
  language_eq : g.language = b.language
  header_eq : g.header = b.header
  productions_eq : g.productions = given
  names_eq : g.names = given.map (·.name)
  root?_eq : g.root? = given.head?.map (·.name)

namespace Builder

open Production (Closed)

variable {b : Builder} {threshold : Level} {policy : Policy} {settings : List Setting}

/-- The grammar that is made of productions of a builder consists of them. -/
theorem consistsOf_grammarOf (b : Builder) (given : List Production) :
    (b.grammarOf given).ConsistsOf b given :=
  ⟨language_grammarOf .., header_grammarOf .., productions_grammarOf .., names_grammarOf ..,
    root?_grammarOf ..⟩

open scoped Classical in
/-- What settings make of a builder without undefined references. -/
noncomputable def verdict (b : Builder) (settings : List Setting) : Except Error Grammar :=
  if b.productions = [] then
    if .resolution .allowRootless ∈ settings then .ok (b.grammarOf [])
    else .error (.resolution (.rootless b.language))
  else if ∀ name ∈ b.names, b.Uses settings name then .ok (b.grammarOf b.productions)
  else if .resolution .skipUnused ∈ settings then
    .ok (b.grammarOf (b.productions.filter fun p => b.Uses settings p.name))
  else if .resolution .ignoreUnused ∈ settings then .ok (b.grammarOf b.productions)
  else .error (.resolution (.unused (b.names.filter fun name => ¬ b.Uses settings name)))

/-- Settings that can be members of a set are resolved under the options among them. -/
theorem resolve_eq_resolveUnder (hs : Setting.Hashable settings) :
    ∃ policy, (∀ o, policy.has o = true ↔ .resolution o ∈ settings) ∧
      ∀ (b : Builder) (threshold : Level),
        b.resolve threshold settings = b.resolveUnder threshold policy := by
  obtain ⟨policy, hp⟩ := hs.exists_policy
  refine ⟨policy, (Policy.ofSettings_eq_ok_iff.mp hp).2, fun b threshold => ?_⟩
  simp only [resolve, hp]

/-- An undefined reference decides, whatever the options, and the error lists all of them. -/
theorem outcome_eq_undefined (hc : ¬ Closed b.productions) :
    (b.resolveUnder threshold policy).outcome =
      .error (.resolution (.undefined (ReferenceGraph.ofProductions b.productions).missing)) := by
  have hm : (ReferenceGraph.ofProductions b.productions).missing.isEmpty = false := by
    rw [List.isEmpty_eq_false_iff]
    intro he
    exact hc (ReferenceGraph.missing_ofProductions_eq_nil_iff.mp he)
  simp [resolveUnder, hm, Resolution.failed]

/-- Once the walk has reached what is in use, settling succeeds with what is kept unless something
is unused and the settings allow neither to leave it out nor to keep it. -/
theorem settle_eq {roots reached : List String}
    (hp : ∀ o, policy.has o = true ↔ .resolution o ∈ settings)
    (hr : ∀ name, name ∈ reached ↔ b.Uses settings name) :
    b.settle threshold policy roots reached =
      let resolved := Report.resolved (b.kept settings).length roots
      if b.unused settings = [] then
        .succeeded threshold (b.grammarOf (b.kept settings)) [resolved]
      else if .resolution .skipUnused ∈ settings then
        .succeeded threshold (b.grammarOf (b.kept settings))
          [.skipped (b.unused settings), resolved]
      else if .resolution .ignoreUnused ∈ settings then
        .succeeded threshold (b.grammarOf (b.kept settings))
          [.kept (b.unused settings).length, resolved]
      else .failed (.resolution (.unused (b.unused settings))) := by
  classical
  have hunused : (b.names.filter fun name => !reached.contains name) = b.unused settings := by
    refine List.filter_congr fun name _ => ?_
    simp [← hr]
  have hreached : (b.productions.filter fun p => reached.contains p.name) =
      b.productions.filter fun p => b.Uses settings p.name := by
    refine List.filter_congr fun p _ => ?_
    simp [← hr]
  have hskip : policy.skipUnused = true ↔ .resolution .skipUnused ∈ settings := hp .skipUnused
  have hignore : policy.ignoreUnused = true ↔ .resolution .ignoreUnused ∈ settings :=
    hp .ignoreUnused
  simp only [settle, hunused, hreached, hskip, hignore, List.isEmpty_iff]
  by_cases hu : b.unused settings = []
  · rw [if_pos hu, if_pos hu, kept_eq_productions (unused_eq_nil_iff.mp hu)]
  · rw [if_neg hu, if_neg hu]
    by_cases hs : .resolution .skipUnused ∈ settings
    · rw [if_pos hs, if_pos hs, kept, if_pos hs]
    · rw [if_neg hs, if_neg hs, kept, if_neg hs]

/-- Settling comes to the verdict once the walk has reached what is in use. -/
theorem outcome_settle {roots reached : List String} (hne : b.productions ≠ [])
    (hp : ∀ o, policy.has o = true ↔ .resolution o ∈ settings)
    (hr : ∀ name, name ∈ reached ↔ b.Uses settings name) :
    (b.settle threshold policy roots reached).outcome = b.verdict settings := by
  rw [settle_eq hp hr, verdict, if_neg hne]
  by_cases hu : b.unused settings = []
  · rw [if_pos hu, if_pos (forall_uses_iff.mpr hu),
      kept_eq_productions (unused_eq_nil_iff.mp hu)]
    rfl
  · rw [if_neg hu, if_neg (mt forall_uses_iff.mp hu), kept]
    by_cases hs : .resolution .skipUnused ∈ settings
    · rw [if_pos hs, if_pos hs, if_pos hs]
      rfl
    · rw [if_neg hs, if_neg hs, if_neg hs]
      by_cases hi : .resolution .ignoreUnused ∈ settings
      · rw [if_pos hi, if_pos hi]
        rfl
      · rw [if_neg hi, if_neg hi]
        rfl

/-- Without undefined references and with productions a resolution settles on what is in use. -/
theorem exists_settle (hb : b.WellFormed) (hc : Closed b.productions) (hne : b.productions ≠ [])
    (hp : ∀ o, policy.has o = true ↔ .resolution o ∈ settings) :
    ∃ reached, (∀ name, name ∈ reached ↔ b.Uses settings name) ∧
      ∀ threshold, b.resolveUnder threshold policy = b.settle threshold policy
        ((ReferenceGraph.ofProductions b.productions).roots policy.allowRootless) reached := by
  obtain ⟨reached, hw, hr⟩ :=
    ReferenceGraph.walk_ofProductions hb.names_nodup hc policy.allowRootless
  have hm := ReferenceGraph.missing_ofProductions_eq_nil_iff.mpr hc
  have hempty : b.productions.isEmpty = false := List.isEmpty_eq_false_iff.mpr hne
  have hrootless : policy.allowRootless = true ↔ .resolution .allowRootless ∈ settings :=
    hp .allowRootless
  refine ⟨reached, fun name => ?_, fun threshold => ?_⟩
  · rw [hr, Uses, propext hrootless]
  · simp only [resolveUnder, hm, List.isEmpty_nil, Bool.not_true, Bool.false_eq_true, if_false,
      hempty, hw]

/-- Without productions a resolution makes an empty grammar or misses a root. -/
theorem resolveUnder_of_empty (he : b.productions = [])
    (hp : ∀ o, policy.has o = true ↔ .resolution o ∈ settings) :
    b.resolveUnder threshold policy =
      if .resolution .allowRootless ∈ settings then
        .succeeded threshold (b.grammarOf []) [.resolvedEmpty]
      else .failed (.resolution (.rootless b.language)) := by
  have hrootless : policy.allowRootless = true ↔ .resolution .allowRootless ∈ settings :=
    hp .allowRootless
  have hm : (ReferenceGraph.ofProductions []).missing = [] := rfl
  simp only [resolveUnder, he, hm, List.isEmpty_nil, Bool.not_true, Bool.false_eq_true, if_false,
    if_true, hrootless]

/-- Without undefined references a resolution comes to the verdict. -/
theorem outcome_of_closed (hb : b.WellFormed) (hc : Closed b.productions)
    (hp : ∀ o, policy.has o = true ↔ .resolution o ∈ settings) :
    (b.resolveUnder threshold policy).outcome = b.verdict settings := by
  by_cases he : b.productions = []
  · rw [verdict, if_pos he, resolveUnder_of_empty he hp]
    by_cases hr : .resolution .allowRootless ∈ settings
    · rw [if_pos hr, if_pos hr]
      rfl
    · rw [if_neg hr, if_neg hr]
      rfl
  · obtain ⟨reached, hr, hsettle⟩ := exists_settle hb hc he hp
    rw [hsettle]
    exact outcome_settle he hp hr

/-- The verdict is a grammar exactly if there is a root or none is needed, and if nothing is unused
or the options allow for it; then it consists of what is kept. -/
theorem verdict_eq_ok_iff {g : Grammar} :
    b.verdict settings = .ok g ↔
      (b.productions = [] → .resolution .allowRootless ∈ settings) ∧
      (.resolution .skipUnused ∈ settings ∨ .resolution .ignoreUnused ∈ settings ∨
        ∀ p ∈ b.productions, b.Uses settings p.name) ∧
      g = b.grammarOf (b.kept settings) := by
  have hall : (∀ name ∈ b.names, b.Uses settings name) ↔
      ∀ p ∈ b.productions, b.Uses settings p.name := List.forall_mem_map
  unfold verdict
  by_cases he : b.productions = []
  · have hk : b.kept settings = [] := by
      rw [kept_eq_productions (by simp [he]), he]
    by_cases hr : .resolution .allowRootless ∈ settings
    · simp [he, hr, hk, eq_comm]
    · simp [he, hr]
  · by_cases hu : ∀ p ∈ b.productions, b.Uses settings p.name
    · rw [if_neg he, if_pos (hall.mpr hu), kept_eq_productions hu]
      constructor
      · intro h
        cases h
        exact ⟨fun hn => absurd hn he, Or.inr (Or.inr hu), rfl⟩
      · rintro ⟨_, _, rfl⟩
        rfl
    · rw [if_neg he, if_neg (mt hall.mp hu)]
      by_cases hs : .resolution .skipUnused ∈ settings
      · simp [he, hs, kept, eq_comm]
      · by_cases hi : .resolution .ignoreUnused ∈ settings
        · simp [he, hs, hi, kept, eq_comm]
        · simp only [hs, hi, hu, if_false, reduceCtorEq, or_self, false_and, and_false]

/-- The verdict is that there is no root exactly if there are no productions and a root is
needed. -/
theorem verdict_eq_rootless_iff {language : String} :
    b.verdict settings = .error (.resolution (.rootless language)) ↔
      b.productions = [] ∧ .resolution .allowRootless ∉ settings ∧ language = b.language := by
  unfold verdict
  by_cases he : b.productions = []
  · by_cases hr : .resolution .allowRootless ∈ settings
    · simp [he, hr]
    · simp [he, hr, eq_comm]
  · rw [if_neg he]
    constructor
    · intro h
      split at h
      · cases h
      · split at h
        · cases h
        · split at h <;> cases h
    · rintro ⟨hn, _⟩
      exact absurd hn he

/-- The verdict is that names are unused exactly if these names are, and the options allow
neither to leave them out nor to keep them. -/
theorem verdict_eq_unused_iff {names : List String} :
    b.verdict settings = .error (.resolution (.unused names)) ↔
      .resolution .skipUnused ∉ settings ∧ .resolution .ignoreUnused ∉ settings ∧
        names = b.unused settings ∧ names ≠ [] := by
  unfold verdict
  by_cases he : b.productions = []
  · have hn : b.unused settings = [] := unused_eq_nil_iff.mpr (by simp [he])
    rw [if_pos he, hn]
    constructor
    · intro h
      split at h <;> cases h
    · rintro ⟨_, _, rfl, hne⟩
      exact absurd rfl hne
  · rw [if_neg he]
    by_cases hu : b.unused settings = []
    · rw [if_pos (forall_uses_iff.mpr hu), hu]
      constructor
      · intro h
        cases h
      · rintro ⟨_, _, rfl, hne⟩
        exact absurd rfl hne
    · rw [if_neg (mt forall_uses_iff.mp hu)]
      by_cases hs : .resolution .skipUnused ∈ settings
      · simp [hs]
      · by_cases hi : .resolution .ignoreUnused ∈ settings
        · simp [hs, hi]
        · simp only [hs, hi, if_false, not_false_eq_true, true_and, Except.error.injEq,
            Error.resolution.injEq, ResolutionError.unused.injEq]
          constructor
          · rintro rfl
            exact ⟨rfl, hu⟩
          · rintro ⟨rfl, _⟩
            rfl

/-- Without undefined references settings that can be members of a set come to their verdict. -/
theorem resolve_of_closed (hb : b.WellFormed) (hs : Setting.Hashable settings)
    (hc : Closed b.productions) :
    (b.resolve threshold settings).outcome = b.verdict settings := by
  obtain ⟨policy, hp, he⟩ := resolve_eq_resolveUnder hs
  rw [he, outcome_of_closed hb hc hp]

/-- With undefined references settings that can be members of a set come to an error about them. -/
theorem resolve_of_not_closed (hs : Setting.Hashable settings) (hc : ¬ Closed b.productions) :
    (b.resolve threshold settings).outcome =
      .error (.resolution (.undefined (ReferenceGraph.ofProductions b.productions).missing)) := by
  obtain ⟨policy, _, he⟩ := resolve_eq_resolveUnder hs
  rw [he, outcome_eq_undefined hc]

/-- A resolution succeeds exactly if its settings can be members of a set, no reference is
undefined, and the verdict is a grammar. -/
theorem resolve_eq_ok_iff (hb : b.WellFormed) {g : Grammar} :
    (b.resolve threshold settings).outcome = .ok g ↔
      Setting.Hashable settings ∧ Closed b.productions ∧ b.verdict settings = .ok g := by
  constructor
  · intro h
    have hs : Setting.Hashable settings := by
      cases hp : Policy.ofSettings settings with
      | error e => simp only [resolve, hp, Resolution.failed, reduceCtorEq] at h
      | ok policy => exact (Policy.ofSettings_eq_ok_iff.mp hp).1
    by_cases hc : Closed b.productions
    · exact ⟨hs, hc, (resolve_of_closed hb hs hc).symm.trans h⟩
    · rw [resolve_of_not_closed hs hc] at h
      cases h
  · rintro ⟨hs, hc, hv⟩
    rw [resolve_of_closed hb hs hc, hv]

/-- Under settings that can be members of a set a resolution complains about unused productions
exactly if no reference is undefined and the verdict complains about them. -/
theorem resolve_eq_unused_iff (hb : b.WellFormed) (hs : Setting.Hashable settings)
    {names : List String} :
    (b.resolve threshold settings).outcome = .error (.resolution (.unused names)) ↔
      Closed b.productions ∧ b.verdict settings = .error (.resolution (.unused names)) := by
  by_cases hc : Closed b.productions
  · rw [resolve_of_closed hb hs hc]
    exact (and_iff_right hc).symm
  · rw [resolve_of_not_closed hs hc]
    simp [hc]

/-- Settings of a resolution that fails for the productions can be members of a set. -/
theorem hashable_of_resolution_error {cause : ResolutionError}
    (h : (b.resolve threshold settings).outcome = .error (.resolution cause)) :
    Setting.Hashable settings := by
  cases hp : Policy.ofSettings settings with
  | error e =>
    obtain ⟨v, rfl⟩ := Policy.error_of_ofSettings hp
    simp only [resolve, hp, Resolution.failed, Except.error.injEq, reduceCtorEq] at h
  | ok policy => exact (Policy.ofSettings_eq_ok_iff.mp hp).1

/-- Settings that admit further roots and have unused productions left out. -/
def pruning : List Setting := [.resolution .skipUnused, .resolution .allowRootless]

/-- The sample without its cycle apart. -/
def prunedSample : Grammar :=
  ⟨"sums", .text "",
    [⟨"sum", .sequence (.nonTerminal "number")
        [.optional (.sequence (.literal "+" (.bool true)) [.nonTerminal "sum"])], "sample:1"⟩,
      ⟨"number", .repetition (.characterSet "DIGIT" []) 1 none, "sample:2"⟩,
      ⟨"blank", .characterSet "SPACE" [], "sample:5"⟩]⟩

/-- Pruning takes the cycle apart out of the sample and nothing else. -/
theorem resolve_sample : (sample.resolve .debug pruning).outcome = .ok prunedSample := by
  cbv

open scoped Classical in
/-- A resolution has exactly one outcome. An undefined reference at any depth of any definition
fails it whatever the options. Without one, a builder that has no productions misses a root or makes
an empty grammar. Otherwise all productions make the grammar if all are in use, and if some are not,
those in use make it, or all do, or the others are complained about, as the options say. -/
theorem resolve_outcome (hb : b.Reachable) (threshold : Level)
    (hs : Setting.Hashable settings) :
    let outcome := (b.resolve threshold settings).outcome
    ((∃ p ∈ b.productions, ∃ name, .nonTerminal name ∈ p.definition.nodes ∧ name ∉ b.names) →
      ∃ missing, outcome = .error (.resolution (.undefined missing))) ∧
    ((∀ p ∈ b.productions, ∀ name, .nonTerminal name ∈ p.definition.nodes → name ∈ b.names) →
      (b.productions = [] →
        (.resolution .allowRootless ∉ settings →
          outcome = .error (.resolution (.rootless b.language))) ∧
        (.resolution .allowRootless ∈ settings → ∃ g, outcome = .ok g ∧ g.ConsistsOf b [])) ∧
      (b.productions ≠ [] →
        ((∀ name ∈ b.names, b.Uses settings name) →
          ∃ g, outcome = .ok g ∧ g.ConsistsOf b b.productions) ∧
        ((∃ name ∈ b.names, ¬ b.Uses settings name) →
          (.resolution .skipUnused ∈ settings → ∃ g, outcome = .ok g ∧
            g.ConsistsOf b (b.productions.filter fun p => b.Uses settings p.name)) ∧
          (.resolution .skipUnused ∉ settings → .resolution .ignoreUnused ∈ settings →
            ∃ g, outcome = .ok g ∧ g.ConsistsOf b b.productions) ∧
          (.resolution .skipUnused ∉ settings → .resolution .ignoreUnused ∉ settings →
            outcome = .error (.resolution
              (.unused (b.names.filter fun name => ¬ b.Uses settings name))))))) := by
  intro outcome
  refine ⟨?_, fun h => ?_⟩
  · rintro ⟨p, hm, name, hr, hn⟩
    exact ⟨_, resolve_of_not_closed hs fun hc => hn (List.mem_map.mpr (hc p hm name hr))⟩
  have hc : Closed b.productions := fun p hm name hr => List.mem_map.mp (h p hm name hr)
  have hverdict : outcome = b.verdict settings := resolve_of_closed hb.wellFormed hs hc
  rw [hverdict, verdict]
  refine ⟨fun he => ⟨fun hr => ?_, fun hr => ?_⟩, fun hne => ⟨fun hall => ?_, ?_⟩⟩
  · rw [if_pos he, if_neg hr]
  · rw [if_pos he, if_pos hr]
    exact ⟨_, rfl, b.consistsOf_grammarOf []⟩
  · rw [if_neg hne, if_pos hall]
    exact ⟨_, rfl, b.consistsOf_grammarOf _⟩
  · rintro ⟨name, hn, hu⟩
    have hsome : ¬ ∀ name ∈ b.names, b.Uses settings name := fun hall => hu (hall name hn)
    rw [if_neg hne, if_neg hsome]
    refine ⟨fun hskip => ?_, fun hskip hignore => ?_, fun hskip hignore => ?_⟩
    · rw [if_pos hskip]
      exact ⟨_, rfl, b.consistsOf_grammarOf _⟩
    · rw [if_neg hskip, if_pos hignore]
      exact ⟨_, rfl, b.consistsOf_grammarOf _⟩
    · rw [if_neg hskip, if_neg hignore]

/-- Settings that admit further roots, and a value that is no option. -/
def admitting : List Setting := [.value (.int 1), .resolution .allowRootless]

/-- With further roots admitted, a resolution of the sample complains about the cycle apart. -/
theorem resolve_sample_admitting : (sample.resolve .debug admitting).outcome =
    .error (.resolution (.unused ["comment", "note"])) := by
  cbv

open scoped Classical in
/-- With further roots admitted, of the sample only the cycle apart is unused. It is left out of the
grammar where the settings say so, and complained about where they do not. -/
theorem resolve_outcome_sample :
    sample.Reachable ∧ Setting.Hashable pruning ∧ Setting.Hashable admitting ∧
      (∀ p ∈ sample.productions, ∀ name, .nonTerminal name ∈ p.definition.nodes →
        name ∈ sample.names) ∧
      (∃ name ∈ sample.names, ¬ sample.Uses pruning name) ∧
      (sample.resolve .debug pruning).outcome = .ok prunedSample ∧
      prunedSample.ConsistsOf sample
        (sample.productions.filter fun p => sample.Uses pruning p.name) ∧
      prunedSample.names = ["sum", "number", "blank"] ∧ prunedSample.root? = some "sum" ∧
      (sample.names.filter fun name => ¬ sample.Uses admitting name) = ["comment", "note"] := by
  have hs : Setting.Hashable pruning := by simp [Setting.Hashable, pruning]
  have ha : Setting.Hashable admitting := by
    simp [Setting.Hashable, admitting, Value.unhashable?]
  have hc : ∀ p ∈ sample.productions, ∀ name, .nonTerminal name ∈ p.definition.nodes →
      name ∈ sample.names := by
    have h := ReferenceGraph.missing_ofProductions_eq_nil_iff.mp
      (show (ReferenceGraph.ofProductions sample.productions).missing = [] by cbv)
    exact fun p hp name hr => List.mem_map.mpr (h p hp name hr)
  have hunused : ["comment", "note"] = sample.unused admitting :=
    (verdict_eq_unused_iff.mp
      ((resolve_eq_unused_iff sample_reachable.wellFormed ha).mp resolve_sample_admitting).2).2.2.1
  have hcomment : "comment" ∈ sample.names ∧ ¬ sample.Uses admitting "comment" := by
    rw [← mem_unused, ← hunused]
    exact List.mem_cons_self
  have hne : sample.productions ≠ [] := by
    intro he
    simpa [names, he] using hcomment.1
  have hroots : .resolution .allowRootless ∈ pruning ↔ .resolution .allowRootless ∈ admitting := by
    simp [pruning, admitting]
  have hpruned : ¬ sample.Uses pruning "comment" := mt (uses_congr hroots).mp hcomment.2
  obtain ⟨g, hg, hconsists⟩ := (((resolve_outcome sample_reachable .debug hs).2 hc).2 hne).2
    ⟨_, hcomment.1, hpruned⟩ |>.1 List.mem_cons_self
  cases resolve_sample.symm.trans hg
  have herror := (((resolve_outcome sample_reachable .debug ha).2 hc).2 hne).2
    ⟨_, hcomment⟩ |>.2.2 (by simp [admitting]) (by simp [admitting])
  have hnames := Error.resolution.inj (Except.error.inj (herror.symm.trans resolve_sample_admitting))
  exact ⟨sample_reachable, hs, ha, hc, ⟨_, hcomment.1, hpruned⟩, hg, hconsists, rfl, rfl,
    ResolutionError.unused.inj hnames⟩

end Builder

end FormalGrammar

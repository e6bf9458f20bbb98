import FormalGrammar.Proofs.Outcome
import FormalGrammar.Proofs.Roots

/-!
# What a resolution logs

The log of a resolution follows from the productions it was given and from the
grammar it made. Nothing is reported before the last check has passed, so a
resolution that fails is silent. What was left out or kept unused is reported
next, and then the grammar itself. The threshold of the logger only filters.
-/

namespace FormalGrammar

open Production (Closed rootNames)

/-- What a logger gets of a report about a language: its level and its wording. -/
def Report.record (language : String) (report : Report) : Level × String :=
  (report.level, report.message language)

/-- A logger emits those reports that reach its threshold. -/
theorem Report.flatMap_emit (threshold : Level) (reports : List Report) :
    reports.flatMap (emit threshold) =
      reports.filter fun report => threshold.rank ≤ report.level.rank := by
  induction reports with
  | nil => rfl
  | cons report reports ih =>
    rw [List.flatMap_cons, ih, emit, List.filter_cons]
    by_cases h : threshold.rank ≤ report.level.rank
    · simp [h]
    · simp [h]

/-- A logger for those who look for a fault emits all reports. -/
theorem Report.flatMap_emit_debug (reports : List Report) :
    reports.flatMap (emit .debug) = reports := by
  rw [flatMap_emit, List.filter_eq_self]
  exact fun report _ => decide_eq_true report.debug_le_level

/-! ## Thresholds -/

/-- Whether resolutions, one for each threshold, all fail alike, or all make the same grammar and
emit the same reports as far as they reach the threshold. -/
inductive Resolution.Thresholded : (Level → Resolution) → Prop
  | failed (error : Error) : Thresholded fun _ => .failed error
  | succeeded (grammar : Grammar) (reports : List Report) :
      Thresholded fun threshold => .succeeded threshold grammar reports

namespace Resolution.Thresholded

variable {f g : Level → Resolution}

/-- A decision that is made at all thresholds alike may be made first. -/
theorem ite {c : Prop} [Decidable c] (hf : Thresholded f) (hg : Thresholded g) :
    Thresholded fun threshold => if c then f threshold else g threshold := by
  by_cases h : c
  · simpa only [h, if_true] using hf
  · simpa only [h, if_false] using hg

/-- Failures are silent. -/
theorem log_eq_nil (h : Thresholded f) {threshold : Level} {error : Error}
    (he : (f threshold).outcome = .error error) : (f threshold).log = [] := by
  cases h with
  | failed => rfl
  | succeeded => cases he

/-- At any threshold the outcome is that at which all is reported, and so is the log apart from the
reports that the threshold holds back. -/
theorem filtered (h : Thresholded f) (threshold : Level) :
    (f threshold).outcome = (f .debug).outcome ∧
      (f threshold).log = (f .debug).log.filter fun report =>
        threshold.rank ≤ report.level.rank := by
  cases h with
  | failed => exact ⟨rfl, rfl⟩
  | succeeded grammar reports =>
    refine ⟨rfl, ?_⟩
    change reports.flatMap (Report.emit threshold) = (reports.flatMap (Report.emit .debug)).filter _
    rw [Report.flatMap_emit_debug, Report.flatMap_emit]

end Resolution.Thresholded

namespace Builder

open Resolution (Thresholded)

variable {b : Builder} {threshold : Level} {policy : Policy} {settings : List Setting}

/-- Settling looks at the threshold only to emit reports. -/
theorem thresholded_settle (b : Builder) (policy : Policy) (roots reached : List String) :
    Thresholded fun threshold => b.settle threshold policy roots reached :=
  .ite (.succeeded _ _) (.ite (.succeeded _ _) (.ite (.succeeded _ _) (.failed _)))

/-- Resolution under options looks at the threshold only to emit reports. -/
theorem thresholded_resolveUnder (b : Builder) (policy : Policy) :
    Thresholded fun threshold => b.resolveUnder threshold policy := by
  refine .ite (.failed _) (.ite (.ite (.succeeded _ _) (.failed _)) ?_)
  dsimp only
  generalize ReferenceGraph.walk _ _ = walked
  cases walked with
  | error error => exact .failed error
  | ok reached => exact b.thresholded_settle policy _ reached

/-- Resolution looks at the threshold only to emit reports. -/
theorem thresholded_resolve (b : Builder) (settings : List Setting) :
    Thresholded fun threshold => b.resolve threshold settings := by
  unfold resolve
  cases Policy.ofSettings settings with
  | error error => exact .failed error
  | ok policy => exact b.thresholded_resolveUnder policy

/-! ## What was left out and what was kept unused -/

/-- The names of a builder that are not in a grammar, in order. -/
def dropped (b : Builder) (g : Grammar) : List String := b.names.filter (· ∉ g.names)

open scoped Classical in
/-- The names of a grammar that are not in use in the builder that it comes from. -/
noncomputable def strays (b : Builder) (settings : List Setting) (g : Grammar) : List String :=
  g.names.filter fun name => ¬ b.Uses settings name

/-- The report about a grammar: how many productions it has, and its roots. -/
noncomputable def summary (settings : List Setting) (g : Grammar) : Report :=
  if g.productions = [] then .resolvedEmpty
  else .resolved g.productions.length
    (rootNames (.resolution .allowRootless ∈ settings) g.productions)

/-- What is not kept is dropped: nothing, or all that is unused if that is to be left out. -/
theorem dropped_kept :
    b.dropped (b.grammarOf (b.kept settings)) =
      if .resolution .skipUnused ∈ settings then b.unused settings else [] := by
  have hmem (name : String) : name ∈ (b.kept settings).map (·.name) ↔
      name ∈ b.names ∧ (.resolution .skipUnused ∈ settings → b.Uses settings name) :=
    mem_names_kept
  unfold dropped unused
  split
  case isTrue hs =>
    refine List.filter_congr fun name hn => ?_
    rw [decide_eq_decide, names_grammarOf, hmem]
    simp [hn, hs]
  case isFalse hs =>
    rw [List.filter_eq_nil_iff]
    intro name hn
    rw [decide_eq_true_iff, names_grammarOf, hmem]
    simp [hn, hs]

/-- What is kept though unused: nothing, or all that is unused if that is not to be left out. -/
theorem strays_kept :
    b.strays settings (b.grammarOf (b.kept settings)) =
      if .resolution .skipUnused ∈ settings then [] else b.unused settings := by
  split
  case isTrue hs =>
    refine List.filter_eq_nil_iff.mpr fun name hn => ?_
    simpa using (mem_names_kept.mp hn).2 hs
  case isFalse hs =>
    rw [kept, if_neg hs]
    rfl

/-- The reports that precede the one about a grammar: which names were dropped, or how many were
kept that are not in use. -/
noncomputable def remarks (b : Builder) (settings : List Setting) (g : Grammar) : List Report :=
  (if b.dropped g = [] then [] else [.skipped (b.dropped g)]) ++
    if b.strays settings g = [] then [] else [.kept (b.strays settings g).length]

/-- There is a remark about what is kept only if something is unused, and it tells all that is. -/
theorem remarks_kept :
    b.remarks settings (b.grammarOf (b.kept settings)) =
      if b.unused settings = [] then []
      else if .resolution .skipUnused ∈ settings then [.skipped (b.unused settings)]
      else [.kept (b.unused settings).length] := by
  rw [remarks, dropped_kept, strays_kept]
  by_cases hu : b.unused settings = []
  · simp [hu]
  · by_cases hs : .resolution .skipUnused ∈ settings
    · simp [hu, hs]
    · simp [hu, hs]

/-- What settling logs if it makes a grammar: remarks on what is unused, and then how many
productions there are and the roots. -/
theorem log_settle {roots reached : List String} {g : Grammar}
    (hp : ∀ o, policy.has o = true ↔ .resolution o ∈ settings)
    (hr : ∀ name, name ∈ reached ↔ b.Uses settings name)
    (h : (b.settle .debug policy roots reached).outcome = .ok g) :
    (b.settle .debug policy roots reached).log =
      b.remarks settings (b.grammarOf (b.kept settings)) ++
        [.resolved (b.kept settings).length roots] := by
  rw [remarks_kept]
  rw [settle_eq hp hr] at h ⊢
  by_cases hu : b.unused settings = []
  · rw [if_pos hu, if_pos hu]
    exact Report.flatMap_emit_debug _
  · rw [if_neg hu] at h ⊢
    rw [if_neg hu]
    by_cases hs : .resolution .skipUnused ∈ settings
    · rw [if_pos hs, if_pos hs]
      exact Report.flatMap_emit_debug _
    · rw [if_neg hs] at h ⊢
      rw [if_neg hs]
      by_cases hi : .resolution .ignoreUnused ∈ settings
      · rw [if_pos hi]
        exact Report.flatMap_emit_debug _
      · rw [if_neg hi] at h
        cases h

/-- A resolution that makes a grammar logs remarks on what is unused, and then the grammar. -/
theorem log_resolve (hb : b.WellFormed) {g : Grammar}
    (h : (b.resolve .debug settings).outcome = .ok g) :
    (b.resolve .debug settings).log = b.remarks settings g ++ [summary settings g] := by
  obtain ⟨hs, hc, hv⟩ := (resolve_eq_ok_iff hb).mp h
  obtain ⟨hroot, -, rfl⟩ := verdict_eq_ok_iff.mp hv
  obtain ⟨policy, hp, he⟩ := resolve_eq_resolveUnder hs
  rw [he] at h ⊢
  by_cases hempty : b.productions = []
  · have hnone : b.kept settings = [] := kept_eq_nil_iff.mpr hempty
    have hall : b.unused settings = [] := unused_eq_nil_iff.mpr (by simp [hempty])
    rw [remarks_kept, if_pos hall, resolveUnder_of_empty hempty hp, if_pos (hroot hempty), hnone]
    exact Report.flatMap_emit_debug _
  · obtain ⟨reached, hr, hsettle⟩ := exists_settle hb hc hempty hp
    have hrootless : policy.allowRootless = true ↔ .resolution .allowRootless ∈ settings :=
      hp .allowRootless
    have hsome : (b.grammarOf (b.kept settings)).productions ≠ [] := mt kept_eq_nil_iff.mp hempty
    have hroots : (ReferenceGraph.ofProductions b.productions).roots policy.allowRootless =
        rootNames (.resolution .allowRootless ∈ settings) (b.kept settings) := by
      rw [rootNames_kept hb.names_nodup, ReferenceGraph.roots_ofProductions hb.names_nodup,
        propext hrootless]
    rw [hsettle] at h ⊢
    rw [log_settle hp hr h, hroots, summary, if_neg hsome, productions_grammarOf]

/-- At most one of both is there to remark on: names that were dropped or names kept unused. -/
theorem dropped_or_strays_eq_nil :
    b.dropped (b.grammarOf (b.kept settings)) = [] ∨
      b.strays settings (b.grammarOf (b.kept settings)) = [] := by
  rw [dropped_kept, strays_kept]
  by_cases hs : .resolution .skipUnused ∈ settings
  · exact Or.inr (if_pos hs)
  · exact Or.inl (if_neg hs)

end Builder

end FormalGrammar

import FormalGrammar.Proofs.Outcome

/-!
# The options agree with one another

The options about unused productions differ only where something is unused; an
undefined reference or a missing root fails under all of them alike. Admitting
further roots never turns a grammar into an error, never leaves out what was
kept, and never adds to what is unused.
-/

namespace FormalGrammar.Builder

open Production (Closed)

variable {b : Builder} {threshold : Level} {settings : List Setting}

/-- What a resolution comes to if options are added to settings. -/
def outcomeAdding (threshold : Level) (b : Builder) (settings : List Setting)
    (added : List ResolutionOption) : Except Error Grammar :=
  (b.resolve threshold (Setting.adding added settings)).outcome

/-- Without undefined references the verdict on the settings with the options added stands. -/
theorem outcomeAdding_of_closed (hb : b.WellFormed) (hs : Setting.Hashable settings)
    (hc : Closed b.productions) (added : List ResolutionOption) :
    b.outcomeAdding threshold settings added = b.verdict (Setting.adding added settings) :=
  resolve_of_closed hb hs.adding hc

/-- The options about unused productions say nothing about roots. -/
theorem allowRootless_mem_adding {added : List ResolutionOption}
    (h : added ⊆ [.skipUnused, .ignoreUnused]) :
    .resolution .allowRootless ∈ Setting.adding added settings ↔
      .resolution .allowRootless ∈ settings := by
  rw [Setting.resolution_mem_adding]
  exact or_iff_right fun hm => by simpa using h hm

/-- If nothing can be unused, all options about unused productions come to the same. -/
theorem verdict_of_unused_eq_nil (hu : b.unused settings = []) :
    (∃ g, ∀ added ⊆ [.skipUnused, .ignoreUnused],
      b.verdict (Setting.adding added settings) = .ok g) ∨
    ∀ added ⊆ [.skipUnused, .ignoreUnused],
      b.verdict (Setting.adding added settings) = .error (.resolution (.rootless b.language)) := by
  by_cases hroot : b.productions = [] → .resolution .allowRootless ∈ settings
  · refine Or.inl ⟨b.grammarOf b.productions, fun added hsub => verdict_eq_ok_iff.mpr ?_⟩
    -- the roots are the same under all these options, and so is what they lead to
    have hall : ∀ p ∈ b.productions, b.Uses (Setting.adding added settings) p.name := by
      rw [← unused_eq_nil_iff, unused_congr (allowRootless_mem_adding hsub), hu]
    refine ⟨fun he => (allowRootless_mem_adding hsub).mpr (hroot he), Or.inr (Or.inr hall), ?_⟩
    rw [kept_eq_productions hall]
  · rw [Classical.not_imp] at hroot
    refine Or.inr fun added hsub => verdict_eq_rootless_iff.mpr ⟨hroot.1, ?_, rfl⟩
    exact mt (allowRootless_mem_adding hsub).mp hroot.2

/-- If names are unused, they are complained about, left out or kept as the options say. -/
theorem verdict_of_unused_ne_nil (hskip : .resolution .skipUnused ∉ settings)
    (hignore : .resolution .ignoreUnused ∉ settings) (hu : b.unused settings ≠ [])
    {added : List ResolutionOption} (hsub : added ⊆ [.skipUnused, .ignoreUnused]) :
    b.verdict (Setting.adding added settings) =
      if .skipUnused ∈ added then
        .ok (b.grammarOf (b.productions.filter fun p => p.name ∉ b.unused settings))
      else if .ignoreUnused ∈ added then .ok (b.grammarOf b.productions)
      else .error (.resolution (.unused (b.unused settings))) := by
  have hunused : b.unused (Setting.adding added settings) = b.unused settings :=
    unused_congr (allowRootless_mem_adding hsub)
  have hroot : b.productions = [] → .resolution .allowRootless ∈ Setting.adding added settings := by
    intro he
    exact absurd (unused_eq_nil_iff.mpr (by simp [he])) hu
  by_cases hs : .skipUnused ∈ added
  · have hm : .resolution .skipUnused ∈ Setting.adding added settings :=
      Setting.resolution_mem_adding.mpr (Or.inl hs)
    rw [if_pos hs, verdict_eq_ok_iff, kept_eq_filter hm, hunused]
    exact ⟨hroot, Or.inl hm, rfl⟩
  · have hm : .resolution .skipUnused ∉ Setting.adding added settings := by
      simp [hs, hskip]
    rw [if_neg hs]
    by_cases hi : .ignoreUnused ∈ added
    · rw [if_pos hi, verdict_eq_ok_iff, kept, if_neg hm]
      exact ⟨hroot, Or.inr (Or.inl (Setting.resolution_mem_adding.mpr (Or.inl hi))), rfl⟩
    · rw [if_neg hi, verdict_eq_unused_iff, hunused]
      exact ⟨hm, by simp [hi, hignore], rfl, hu⟩

/-- To admit further roots keeps what was a grammar one. -/
theorem resolve_adding_allowRootless (hb : b.WellFormed) {g : Grammar}
    (hg : (b.resolve threshold settings).outcome = .ok g) :
    g = b.grammarOf (b.kept settings) ∧
      (b.resolve threshold (Setting.adding [.allowRootless] settings)).outcome =
        .ok (b.grammarOf (b.kept (Setting.adding [.allowRootless] settings))) := by
  obtain ⟨hs, hc, hv⟩ := (resolve_eq_ok_iff hb).mp hg
  obtain ⟨_, hunused, hkept⟩ := verdict_eq_ok_iff.mp hv
  have hroot : .resolution .allowRootless ∈ Setting.adding [.allowRootless] settings := by simp
  refine ⟨hkept, (resolve_eq_ok_iff hb).mpr ⟨hs.adding, hc, verdict_eq_ok_iff.mpr ?_⟩⟩
  refine ⟨fun _ => hroot, ?_, rfl⟩
  rcases hunused with hskip | hignore | hall
  · exact Or.inl (Setting.resolution_mem_adding.mpr (Or.inr hskip))
  · exact Or.inr (Or.inl (Setting.resolution_mem_adding.mpr (Or.inr hignore)))
  · exact Or.inr (Or.inr fun p hp => (hall p hp).mono fun _ => hroot)

/-- What is complained about with further roots admitted is part of what is complained about
without. -/
theorem verdict_eq_unused_of_adding {names : List String}
    (h : b.verdict (Setting.adding [.allowRootless] settings) =
      .error (.resolution (.unused names))) :
    b.verdict settings = .error (.resolution (.unused (b.unused settings))) ∧
      names.Sublist (b.unused settings) := by
  obtain ⟨hskip, hignore, rfl, hne⟩ := verdict_eq_unused_iff.mp h
  rw [Setting.resolution_mem_adding, not_or] at hskip hignore
  have hsub : (b.unused (Setting.adding [.allowRootless] settings)).Sublist (b.unused settings) :=
    unused_sublist fun hm => Setting.resolution_mem_adding.mpr (Or.inr hm)
  refine ⟨verdict_eq_unused_iff.mpr ⟨hskip.2, hignore.2, rfl, fun hn => hne ?_⟩, hsub⟩
  rw [hn] at hsub
  exact List.eq_nil_of_sublist_nil hsub

/-- The options agree. Those about unused productions come to the same grammar or the same error,
unless names are unused, which are then complained about, left out, or kept. To admit further roots
keeps what was a grammar one, keeps all productions that were kept, and leaves no more names unused.
The first production is never unused. -/
theorem options_agree (hb : b.Reachable) (threshold : Level) (hs : Setting.Hashable settings) :
    (.resolution .skipUnused ∉ settings → .resolution .ignoreUnused ∉ settings →
      (∃ g, ∀ added ⊆ [.skipUnused, .ignoreUnused],
        b.outcomeAdding threshold settings added = .ok g) ∨
      (∃ cause, ((∃ missing, cause = .undefined missing) ∨ cause = .rootless b.language) ∧
        ∀ added ⊆ [.skipUnused, .ignoreUnused],
          b.outcomeAdding threshold settings added = .error (.resolution cause)) ∨
      ∃ names, names ≠ [] ∧ names.Sublist b.names ∧
        (b.resolve threshold settings).outcome = .error (.resolution (.unused names)) ∧
        (∃ g, b.outcomeAdding threshold settings [.skipUnused] = .ok g ∧
          b.outcomeAdding threshold settings [.skipUnused, .ignoreUnused] = .ok g ∧
          g.ConsistsOf b (b.productions.filter fun p => p.name ∉ names) ∧
          g.names = b.names.filter fun name => name ∉ names) ∧
        ∃ g, b.outcomeAdding threshold settings [.ignoreUnused] = .ok g ∧
          g.ConsistsOf b b.productions) ∧
    (.resolution .skipUnused ∉ settings → ∀ g, (b.resolve threshold settings).outcome = .ok g →
      b.outcomeAdding threshold settings [.allowRootless] = .ok g) ∧
    (.resolution .skipUnused ∈ settings → ∀ g, (b.resolve threshold settings).outcome = .ok g →
      ∃ h, b.outcomeAdding threshold settings [.allowRootless] = .ok h ∧
        g.productions.Sublist h.productions) ∧
    (∀ names, b.outcomeAdding threshold settings [.allowRootless] =
        .error (.resolution (.unused names)) →
      ∃ others, (b.resolve threshold settings).outcome = .error (.resolution (.unused others)) ∧
        names.Sublist others) ∧
    ∀ p, b.productions.head? = some p →
      (∀ names, (b.resolve threshold settings).outcome = .error (.resolution (.unused names)) →
        p.name ∉ names) ∧
      ∀ g, (b.resolve threshold settings).outcome = .ok g → g.productions.head? = some p := by
  have hw := hb.wellFormed
  refine ⟨fun hskip hignore => ?_, fun hskip g hg => ?_, fun hskip g hg => ?_, fun names h => ?_,
    fun p hp => ⟨fun names h => ?_, fun g hg => ?_⟩⟩
  · by_cases hc : Closed b.productions
    · rw [resolve_of_closed hw hs hc]
      simp only [outcomeAdding_of_closed hw hs hc]
      by_cases hu : b.unused settings = []
      · refine (verdict_of_unused_eq_nil hu).imp_right fun h => Or.inl ⟨_, Or.inr rfl, h⟩
      · have hv {added : List ResolutionOption} (hsub : added ⊆ [.skipUnused, .ignoreUnused]) :=
          verdict_of_unused_ne_nil hskip hignore hu hsub
        refine Or.inr (Or.inr ⟨b.unused settings, hu, List.filter_sublist, ?_, ?_, ?_⟩)
        · exact verdict_eq_unused_iff.mpr ⟨hskip, hignore, rfl, hu⟩
        · refine ⟨_, hv (by simp), hv (by simp), b.consistsOf_grammarOf _, ?_⟩
          rw [names_grammarOf, names, List.filter_map]
          rfl
        · exact ⟨_, hv (by simp), b.consistsOf_grammarOf _⟩
    · have hmissing (added : List ResolutionOption) :
          b.outcomeAdding threshold settings added = _ := resolve_of_not_closed hs.adding hc
      exact Or.inr (Or.inl ⟨_, Or.inl ⟨_, rfl⟩, fun added _ => hmissing added⟩)
  · obtain ⟨rfl, hmore⟩ := resolve_adding_allowRootless hw hg
    rw [outcomeAdding, hmore, kept, kept, if_neg hskip, if_neg (by simp [hskip])]
  · obtain ⟨rfl, hmore⟩ := resolve_adding_allowRootless hw hg
    refine ⟨_, hmore, kept_sublist_kept hskip fun hm => ?_⟩
    exact Setting.resolution_mem_adding.mpr (Or.inr hm)
  · obtain ⟨hc, hv⟩ := (resolve_eq_unused_iff hw hs.adding).mp h
    obtain ⟨hless, hsub⟩ := verdict_eq_unused_of_adding hv
    exact ⟨_, (resolve_eq_unused_iff hw hs).mpr ⟨hc, hless⟩, hsub⟩
  · obtain ⟨_, hv⟩ := (resolve_eq_unused_iff hw hs).mp h
    obtain ⟨_, _, rfl, _⟩ := verdict_eq_unused_iff.mp hv
    exact head?_not_mem_unused hp
  · obtain ⟨_, _, hv⟩ := (resolve_eq_ok_iff hw).mp hg
    obtain ⟨_, _, rfl⟩ := verdict_eq_ok_iff.mp hv
    exact head?_kept.trans hp

/-- Of the sample three names are unused, one of which further roots take into use; to leave out
unused productions keeps the other two, and to keep them keeps all. -/
theorem options_agree_sample :
    sample.Reachable ∧ Setting.Hashable [.value .null] ∧
      .resolution .skipUnused ∉ [Setting.value .null] ∧
      .resolution .ignoreUnused ∉ [Setting.value .null] ∧
      (sample.resolve .debug [.value .null]).outcome =
        .error (.resolution (.unused ["comment", "note", "blank"])) ∧
      (∃ g, sample.outcomeAdding .debug [.value .null] [.skipUnused] = .ok g ∧
        g.names = ["sum", "number"] ∧ g.root? = some "sum" ∧ g.language = "sums") ∧
      (∃ g, sample.outcomeAdding .debug [.value .null] [.ignoreUnused] = .ok g ∧
        g.names = ["sum", "number", "comment", "note", "blank"]) ∧
      ["comment", "note"].Sublist ["comment", "note", "blank"] := by
  have hs : Setting.Hashable [.value .null] := by simp [Setting.Hashable, Value.unhashable?]
  have hskip : .resolution .skipUnused ∉ [Setting.value .null] := by simp
  have hignore : .resolution .ignoreUnused ∉ [Setting.value .null] := by simp
  have hunused : (sample.resolve .debug [.value .null]).outcome =
      .error (.resolution (.unused ["comment", "note", "blank"])) := by
    cbv
  have hfewer : sample.outcomeAdding .debug [.value .null] [.allowRootless] =
      .error (.resolution (.unused ["comment", "note"])) := by
    cbv
  obtain ⟨hagree, _, _, hmore, _⟩ := options_agree sample_reachable .debug hs
  obtain ⟨others, ho, hsub⟩ := hmore _ hfewer
  cases hunused.symm.trans ho
  rcases hagree hskip hignore with ⟨g, hg⟩ | ⟨cause, hcause, hg⟩ | ⟨names, _, _, hn, hless, hall⟩
  · cases hunused.symm.trans (hg [] (List.nil_subset _))
  · cases hunused.symm.trans (hg [] (List.nil_subset _))
    simp at hcause
  · cases hunused.symm.trans hn
    obtain ⟨g, hg, _, hfiltered, hnames⟩ := hless
    obtain ⟨h, hh, hfull⟩ := hall
    refine ⟨sample_reachable, hs, hskip, hignore, hunused, ⟨g, hg, hnames, ?_, ?_⟩,
      ⟨h, hh, hfull.names_eq⟩, hsub⟩
    · exact hfiltered.root?_eq
    · exact hfiltered.language_eq

end FormalGrammar.Builder

import FormalGrammar.Proofs.Equality
import FormalGrammar.Proofs.Outcome
import FormalGrammar.Proofs.SameReferences

/-!
# Resolution is a fixed point on its results

The productions of a resolved grammar can be entered into a fresh builder as
they are, and resolving that builder gives an equal grammar. After pruning this
needs no option about unused productions any more, although the roots are found
anew among the productions that are left.
-/

namespace FormalGrammar

open Production (Closed InUse SameReferences)

/-! ## Entering productions again -/

/-- A production as it is when it is written at another place. -/
def Production.moved (place : Production → String) (p : Production) : Production :=
  { p with location := place p }

namespace Production

variable {place : Production → String} {productions : List Production}

/-- Where productions are written does not matter to what they refer to. -/
theorem sameReferences_moved : SameReferences productions (productions.map (moved place)) where
  first := by
    rw [List.map_map]
    rfl
  counterpart p hp := ⟨p.moved place, List.mem_map_of_mem hp, rfl, fun _ => Iff.rfl⟩
  counterpart' q hq := by
    obtain ⟨p, hp, rfl⟩ := List.mem_map.mp hq
    exact ⟨p, hp, rfl, fun _ => Iff.rfl⟩

/-- Where productions are written does not matter to whether they are closed. -/
theorem closed_moved (hc : Closed productions) : Closed (productions.map (moved place)) :=
  sameReferences_moved.closed hc

/-- Where productions are written does not matter to what is in use. -/
theorem inUse_moved {furtherRoots : Prop} {name : String}
    (h : InUse productions furtherRoots name) :
    InUse (productions.map (moved place)) furtherRoots name :=
  sameReferences_moved.inUse h

end Production

namespace Builder

variable {b : Builder} {threshold : Level} {settings : List Setting}

/-- The requests that enter productions, each with its definition as the only term and from a
place of its own. -/
def reentry (place : Production → String) (productions : List Production) : List Request :=
  productions.map fun p => .add (.text p.name) (.term p.definition) [] (place p)

/-- An open builder accepts productions with new names, and their definitions stay as they are. -/
theorem run_reentry (threshold : Level) (place : Production → String)
    {productions : List Production}
    (hopen : b.built = false) (hn : (b.names ++ productions.map (·.name)).Nodup)
    (hne : ∀ p ∈ productions, p.name ≠ "") :
    b.run threshold (reentry place productions) =
      ({ b with productions := b.productions ++ productions.map (Production.moved place) },
        productions.map fun _ => .changed (.ok ())) := by
  induction productions generalizing b with
  | nil => simp [reentry, run]
  | cons p ps ih =>
    rw [List.forall_mem_cons] at hne
    have hfree : ∀ q ∈ b.productions, q.name ≠ p.name := by
      intro q hq he
      rw [List.map_cons, List.nodup_middle, List.nodup_cons, List.mem_append] at hn
      exact hn.1 (Or.inl (he ▸ List.mem_map_of_mem hq))
    have hadd := add_eq_ok_iff.mpr
      ⟨hopen, p.name, p.definition, rfl, hne.1, hfree,
        (rfl : Term.choiceOf (.term p.definition) [] = .ok p.definition),
        (rfl : _ = { b with productions := b.productions ++ [p.moved place] })⟩
    have hrest := ih (b := { b with productions := b.productions ++ [p.moved place] }) hopen
      (by simpa [names, Production.moved] using hn) hne.2
    simp only [reentry] at hrest ⊢
    rw [List.map_cons, run, step, hadd, adopt]
    simp only
    rw [hrest]
    simp

/-! ## Resolving again -/

/-- The builder into which the productions of a grammar were entered again. -/
def rebuilt (g : Grammar) (place : Production → String) : Builder :=
  ⟨g.language, g.header, g.productions.map (Production.moved place), false⟩

/-- A rebuilt builder makes a grammar that equals the one it was made from. -/
theorem same_grammarOf_rebuilt (g : Grammar) (place : Production → String) :
    ((rebuilt g place).grammarOf (rebuilt g place).productions).same g = true := by
  have hp := Production.sameAll_map_location place g.productions
  rw [Grammar.same]
  simp only [grammarOf, rebuilt, beq_self_eq_true, Value.same_refl, Bool.true_and]
  exact hp

/-- The names of what is kept are not shared. -/
theorem WellFormed.nodup_kept (hb : b.WellFormed) (settings : List Setting) :
    ((b.kept settings).map (·.name)).Nodup :=
  (kept_sublist.map _).nodup hb.names_nodup

/-- The productions that a well-formed builder keeps stay well formed when entered again. -/
theorem wellFormed_rebuilt (hb : b.WellFormed) (place : Production → String) :
    (rebuilt (b.grammarOf (b.kept settings)) place).WellFormed := by
  have hnames : (rebuilt (b.grammarOf (b.kept settings)) place).names =
      (b.kept settings).map (·.name) := List.map_map
  refine ⟨hb.language_ne_empty, ?_, ?_⟩
  · rw [hnames]
    exact hb.nodup_kept settings
  · intro q hq
    obtain ⟨p, hp, rfl⟩ := List.mem_map.mp hq
    exact hb.name_ne_empty p (kept_sublist.subset hp)

/-- If nothing unused is kept, all is in use by its own references once it was entered again. -/
theorem uses_rebuilt (place : Production → String)
    (hu : .resolution .skipUnused ∈ settings ∨ ∀ p ∈ b.productions, b.Uses settings p.name) :
    ∀ q ∈ (rebuilt (b.grammarOf (b.kept settings)) place).productions,
      (rebuilt (b.grammarOf (b.kept settings)) place).Uses settings q.name := by
  intro q hq
  obtain ⟨p, hp, rfl⟩ := List.mem_map.mp hq
  exact Production.inUse_moved (inUse_kept hu p hp)

/-- A builder with closed productions resolves to all of them if all are in use, or if the options
have the others kept and not left out. -/
theorem resolve_to_all (hb : b.WellFormed) (hs : Setting.Hashable settings)
    (hc : Closed b.productions) (hroot : b.productions = [] → .resolution .allowRootless ∈ settings)
    (hu : (∀ p ∈ b.productions, b.Uses settings p.name) ∨
      .resolution .skipUnused ∉ settings ∧ .resolution .ignoreUnused ∈ settings) :
    (b.resolve threshold settings).outcome = .ok (b.grammarOf b.productions) := by
  refine (resolve_eq_ok_iff hb).mpr ⟨hs, hc, verdict_eq_ok_iff.mpr ⟨hroot, ?_, ?_⟩⟩
  · rcases hu with hall | ⟨_, hi⟩
    · exact Or.inr (Or.inr hall)
    · exact Or.inr (Or.inl hi)
  · rcases hu with hall | ⟨hskip, _⟩
    · rw [kept_eq_productions hall]
    · rw [kept, if_neg hskip]

/-- Resolution is a fixed point on its results: a fresh builder accepts the productions of the
grammar as they are, and resolves under the same settings to an equal grammar. If unused
productions were left out, it does so without any option about unused productions. -/
theorem resolve_fixed_point (hb : b.Reachable) {g : Grammar}
    (hg : (b.resolve threshold settings).outcome = .ok g) (place : Production → String) :
    ∃ fresh last,
      start (.text g.language) g.header = .ok fresh ∧
      fresh.run threshold (reentry place g.productions) =
        (last, g.productions.map fun _ => .changed (.ok ())) ∧
      (∃ h, (last.resolve threshold settings).outcome = .ok h ∧ h.same g = true) ∧
      (.resolution .skipUnused ∈ settings →
        ∃ h, (last.resolve threshold
          (Setting.without [.skipUnused, .ignoreUnused] settings)).outcome = .ok h ∧
            h.same g = true) := by
  have hw := hb.wellFormed
  obtain ⟨hs, hc, hv⟩ := (resolve_eq_ok_iff hw).mp hg
  obtain ⟨hroot, hunused, rfl⟩ := verdict_eq_ok_iff.mp hv
  have hstart : start (.text b.language) b.header = .ok ⟨b.language, b.header, [], false⟩ :=
    start_eq_ok_iff.mpr ⟨b.language, rfl, hw.language_ne_empty, rfl⟩
  have hrun := run_reentry threshold place (b := ⟨b.language, b.header, [], false⟩) rfl
    (hw.nodup_kept settings) fun p hp => hw.name_ne_empty p (kept_sublist.subset hp)
  let last := rebuilt (b.grammarOf (b.kept settings)) place
  have hlast : last.WellFormed := wellFormed_rebuilt hw place
  have hclosed : Closed last.productions := Production.closed_moved (closed_kept hc)
  have hempty : last.productions = [] → .resolution .allowRootless ∈ settings := fun he =>
    hroot (kept_eq_nil_iff.mp (List.map_eq_nil_iff.mp he))
  have hsame := same_grammarOf_rebuilt (b.grammarOf (b.kept settings)) place
  refine ⟨_, last, hstart, hrun, ⟨_, resolve_to_all hlast hs hclosed hempty ?_, hsame⟩, ?_⟩
  · by_cases hskip : .resolution .skipUnused ∈ settings
    · exact Or.inl (uses_rebuilt place (Or.inl hskip))
    · rcases hunused with h | hignore | hall
      · exact absurd h hskip
      · exact Or.inr ⟨hskip, hignore⟩
      · exact Or.inl (uses_rebuilt place (Or.inr hall))
  · intro hskip
    have hused : ∀ q ∈ last.productions, last.Uses settings q.name :=
      uses_rebuilt place (Or.inl hskip)
    refine ⟨_, resolve_to_all hlast hs.without hclosed ?_ (Or.inl fun q hq => ?_), hsame⟩
    · intro he
      exact Setting.resolution_mem_without.mpr ⟨hempty he, by decide⟩
    · exact (uses_without (by decide)).mpr (hused q hq)

/-- The three productions that pruning leaves of the sample can be entered again, and once they
are, nothing has to be pruned any more. -/
theorem resolve_fixed_point_sample :
    (sample.resolve .debug pruning).outcome = .ok prunedSample ∧
      .resolution .skipUnused ∈ pruning ∧
      ∃ last, (Builder.mk "sums" (.text "") [] false).run .debug
          (reentry (fun _ => "again") prunedSample.productions) =
            (last, [.changed (.ok ()), .changed (.ok ()), .changed (.ok ())]) ∧
        ∃ h, (last.resolve .debug [.resolution .allowRootless]).outcome = .ok h ∧
          h.same prunedSample = true := by
  have hskip : .resolution .skipUnused ∈ pruning := List.mem_cons_self
  obtain ⟨fresh, last, hstart, hrun, _, hfixed⟩ :=
    resolve_fixed_point sample_reachable resolve_sample fun _ => "again"
  cases hstart
  exact ⟨resolve_sample, hskip, last, hrun, hfixed hskip⟩

end Builder

end FormalGrammar

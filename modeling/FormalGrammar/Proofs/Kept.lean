import FormalGrammar.Proofs.Settings
import FormalGrammar.Proofs.Usage
import Mathlib.Data.List.Basic

/-!
# What a resolution keeps

The productions that a resolution keeps if it succeeds, said by the names in use
and by the options among the settings. What is kept begins like what there was,
stays closed, and is in use by its own references if nothing unused is kept. The
names that are not in use are those that a resolution can complain about.
-/

namespace FormalGrammar.Builder

open Production (Closed InUse)

variable {b : Builder} {settings : List Setting}

/-- Whether a name is in use under settings. -/
def Uses (b : Builder) (settings : List Setting) : String → Prop :=
  InUse b.productions (.resolution .allowRootless ∈ settings)

/-- What is in use depends on the settings only by whether further roots are admitted. -/
theorem uses_congr {others : List Setting} {name : String}
    (h : .resolution .allowRootless ∈ others ↔ .resolution .allowRootless ∈ settings) :
    b.Uses others name ↔ b.Uses settings name :=
  Production.inUse_congr h

/-- Taking out options that say nothing about roots leaves the same names in use. -/
theorem uses_without {removed : List ResolutionOption} (h : .allowRootless ∉ removed)
    {name : String} : b.Uses (Setting.without removed settings) name ↔ b.Uses settings name := by
  refine uses_congr ?_
  rw [Setting.resolution_mem_without]
  exact and_iff_left h

open scoped Classical in
/-- The productions that a resolution keeps if it succeeds. -/
noncomputable def kept (b : Builder) (settings : List Setting) : List Production :=
  if .resolution .skipUnused ∈ settings then b.productions.filter fun p => b.Uses settings p.name
  else b.productions

open scoped Classical in
/-- The test by which unused productions are left out holds exactly of those in use. -/
theorem decide_uses_iff (b : Builder) (settings : List Setting) :
    ∀ p ∈ b.productions, decide (b.Uses settings p.name) = true ↔
      InUse b.productions (.resolution .allowRootless ∈ settings) p.name :=
  fun _ _ => decide_eq_true_iff

open scoped Classical in
/-- The names that are not in use under settings, in order. -/
noncomputable def unused (b : Builder) (settings : List Setting) : List String :=
  b.names.filter fun name => ¬ b.Uses settings name

/-- A name is unused if a production has it and it is not in use. -/
@[simp] theorem mem_unused {name : String} :
    name ∈ b.unused settings ↔ name ∈ b.names ∧ ¬ b.Uses settings name := by
  simp [unused]

/-- Nothing is unused exactly if all productions are in use. -/
theorem unused_eq_nil_iff :
    b.unused settings = [] ↔ ∀ p ∈ b.productions, b.Uses settings p.name := by
  simp only [List.eq_nil_iff_forall_not_mem, mem_unused, not_and, Classical.not_not]
  exact List.forall_mem_map

/-- All names are in use exactly if none is unused. -/
theorem forall_uses_iff : (∀ name ∈ b.names, b.Uses settings name) ↔ b.unused settings = [] :=
  List.forall_mem_map.trans unused_eq_nil_iff.symm

/-- What is unused depends on the settings only by whether further roots are admitted. -/
theorem unused_congr {others : List Setting}
    (h : .resolution .allowRootless ∈ others ↔ .resolution .allowRootless ∈ settings) :
    b.unused others = b.unused settings := by
  refine List.filter_congr fun name _ => ?_
  rw [decide_eq_decide, uses_congr h]

/-- The first production is never unused. -/
theorem head?_not_mem_unused {p : Production} (h : b.productions.head? = some p) :
    p.name ∉ b.unused settings := by
  rw [mem_unused, not_and, Classical.not_not]
  exact fun _ => .first h

/-- Admitting further roots leaves unused only some of what was. -/
theorem unused_sublist {others : List Setting}
    (h : .resolution .allowRootless ∈ settings → .resolution .allowRootless ∈ others) :
    (b.unused others).Sublist (b.unused settings) := by
  refine List.monotone_filter_right b.names fun name hn => ?_
  simp only [decide_eq_true_eq] at hn ⊢
  exact mt (Production.InUse.mono h) hn

/-- Where unused productions are left out, all those are kept whose names are not unused. -/
theorem kept_eq_filter (h : .resolution .skipUnused ∈ settings) :
    b.kept settings = b.productions.filter fun p => p.name ∉ b.unused settings := by
  rw [kept, if_pos h]
  refine List.filter_congr fun p hp => ?_
  have hn : p.name ∈ b.names := List.mem_map_of_mem hp
  rw [decide_eq_decide, mem_unused, not_and, Classical.not_not]
  exact ⟨fun hu _ => hu, fun hu => hu hn⟩

/-- Admitting further roots has all kept that was, if unused productions were left out before. -/
theorem kept_sublist_kept {others : List Setting} (hs : .resolution .skipUnused ∈ settings)
    (h : .resolution .allowRootless ∈ settings → .resolution .allowRootless ∈ others) :
    (b.kept settings).Sublist (b.kept others) := by
  by_cases ho : .resolution .skipUnused ∈ others
  · rw [kept, kept, if_pos hs, if_pos ho]
    refine List.monotone_filter_right b.productions fun p hp => ?_
    simp only [decide_eq_true_eq] at hp ⊢
    exact hp.mono h
  · rw [kept, kept, if_pos hs, if_neg ho]
    exact List.filter_sublist

/-- A kept production is one that there was and, if unused ones are left out, one in use. -/
theorem mem_kept_iff {p : Production} :
    p ∈ b.kept settings ↔
      p ∈ b.productions ∧ (.resolution .skipUnused ∈ settings → b.Uses settings p.name) := by
  unfold kept
  split
  case isTrue hs => simp [hs]
  case isFalse hs => simp [hs]

/-- Where all is in use, everything is kept. -/
theorem kept_eq_productions (h : ∀ p ∈ b.productions, b.Uses settings p.name) :
    b.kept settings = b.productions := by
  unfold kept
  split
  · exact List.filter_eq_self.mpr fun p hp => by simpa using h p hp
  · rfl

/-- What is kept is some of what there was, in the same order. -/
theorem kept_sublist : (b.kept settings).Sublist b.productions := by
  unfold kept
  split
  · exact List.filter_sublist
  · exact List.Sublist.refl _

/-- What is kept begins like what there was. -/
theorem head?_kept : (b.kept settings).head? = b.productions.head? := by
  unfold kept
  split
  · exact Production.head?_kept (b.decide_uses_iff settings)
  · rfl

/-- The kept names are those that there were and, if unused ones are left out, that are in use. -/
theorem mem_names_kept {name : String} :
    name ∈ (b.kept settings).map (·.name) ↔
      name ∈ b.names ∧ (.resolution .skipUnused ∈ settings → b.Uses settings name) := by
  simp only [names, List.mem_map, mem_kept_iff]
  constructor
  · rintro ⟨p, ⟨hp, hu⟩, rfl⟩
    exact ⟨⟨p, hp, rfl⟩, hu⟩
  · rintro ⟨⟨p, hp, rfl⟩, hu⟩
    exact ⟨p, ⟨hp, hu⟩, rfl⟩

/-- Nothing is kept only if there was nothing. -/
@[simp] theorem kept_eq_nil_iff : b.kept settings = [] ↔ b.productions = [] := by
  rw [← List.head?_eq_none_iff, head?_kept, List.head?_eq_none_iff]

/-- What is kept of closed productions is closed. -/
theorem closed_kept (hc : Closed b.productions) : Closed (b.kept settings) := by
  unfold kept
  split
  · exact Production.closed_kept (b.decide_uses_iff settings) hc
  · exact hc

/-- What is kept is in use among what is kept, if all of it was in use before. -/
theorem inUse_kept (hu : .resolution .skipUnused ∈ settings ∨
      ∀ p ∈ b.productions, b.Uses settings p.name) :
    ∀ p ∈ b.kept settings,
      InUse (b.kept settings) (.resolution .allowRootless ∈ settings) p.name := by
  rcases hu with hs | hall
  · unfold kept
    rw [if_pos hs]
    exact fun _ => Production.inUse_of_mem_kept (b.decide_uses_iff settings)
  · rw [kept_eq_productions hall]
    exact hall

end FormalGrammar.Builder

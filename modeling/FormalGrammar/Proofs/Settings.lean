import FormalGrammar.Grammar.Resolution
import FormalGrammar.Proofs.Construction

/-!
# Settings as sets of options

A resolution reads its settings as a set: each has to be able to be a member of
one, and apart from that only which resolution options are among them matters.
-/

namespace FormalGrammar

/-- Whether all settings can be members of a set. -/
def Setting.Hashable (settings : List Setting) : Prop :=
  ∀ v, .value v ∈ settings → v.unhashable? = none

/-- The settings that are none of the given resolution options. -/
def Setting.without (removed : List ResolutionOption) (settings : List Setting) : List Setting :=
  settings.filter fun s => !s.resolution?.any removed.contains

/-- The settings with resolution options added to them. -/
def Setting.adding (added : List ResolutionOption) (settings : List Setting) : List Setting :=
  added.map .resolution ++ settings

/-- A function that takes off what another puts on takes off a list what stands there with it on. -/
theorem mem_filterMap_iff {α β : Type} {f : α → Option β} {g : β → α}
    (h : ∀ a b, f a = some b ↔ a = g b) {as : List α} {b : β} :
    b ∈ as.filterMap f ↔ g b ∈ as := by
  simp [List.mem_filterMap, h]

namespace Setting

variable {settings : List Setting} {removed added : List ResolutionOption}

/-- The values among settings are those listed as such. -/
theorem mem_filterMap_value? {v : Value} :
    v ∈ settings.filterMap value? ↔ .value v ∈ settings :=
  mem_filterMap_iff fun s v => by cases s <;> simp [value?]

/-- The resolution options among settings are those listed as such. -/
theorem mem_filterMap_resolution? {o : ResolutionOption} :
    o ∈ settings.filterMap resolution? ↔ .resolution o ∈ settings :=
  mem_filterMap_iff fun s o => by cases s <;> simp [resolution?]

/-- Whether a resolution option is among settings is decided by looking at the options alone. -/
instance decidableMemResolution (o : ResolutionOption) (settings : List Setting) :
    Decidable (.resolution o ∈ settings) :=
  decidable_of_iff (o ∈ settings.filterMap resolution?) mem_filterMap_resolution?

/-- A resolution option is left exactly if it was there and is none of those taken out. -/
@[simp] theorem resolution_mem_without {o : ResolutionOption} :
    .resolution o ∈ without removed settings ↔ .resolution o ∈ settings ∧ o ∉ removed := by
  simp [without, resolution?]

/-- Taking out options leaves settings that can be members of a set. -/
theorem Hashable.without (h : Hashable settings) : Hashable (Setting.without removed settings) :=
  fun v hv => h v (List.mem_filter.mp hv).1

/-- A resolution option is there exactly if it was there or was added. -/
@[simp] theorem resolution_mem_adding {o : ResolutionOption} :
    .resolution o ∈ adding added settings ↔ o ∈ added ∨ .resolution o ∈ settings := by
  simp [adding]

/-- Adding options leaves settings that can be members of a set. -/
theorem Hashable.adding (h : Hashable settings) : Hashable (Setting.adding added settings) := by
  intro v hv
  simp only [Setting.adding, List.mem_append, List.mem_map, reduceCtorEq, and_false, exists_false,
    false_or] at hv
  exact h v hv

end Setting

/-- A set of options is determined by which options are in force. -/
theorem Policy.ext_has {policy other : Policy} (h : ∀ o, policy.has o = other.has o) :
    policy = other := by
  obtain ⟨skip, ignore, rootless⟩ := policy
  obtain ⟨skip', ignore', rootless'⟩ := other
  have hs : skip = skip' := h .skipUnused
  have hi : ignore = ignore' := h .ignoreUnused
  have hr : rootless = rootless' := h .allowRootless
  rw [hs, hi, hr]

/-- Settings make a set of options exactly if all of them can be members of a set, and then the
options in force are those among the settings. -/
theorem Policy.ofSettings_eq_ok_iff {settings : List Setting} {policy : Policy} :
    Policy.ofSettings settings = .ok policy ↔
      Setting.Hashable settings ∧ ∀ o, policy.has o = true ↔ .resolution o ∈ settings := by
  have hh : checkHashable (settings.filterMap Setting.value?) = .ok () ↔
      Setting.Hashable settings := by
    rw [checkHashable_eq_ok_iff]
    exact forall_congr' fun v => by rw [Setting.mem_filterMap_value?]
  have ho (o : ResolutionOption) :
      (Policy.ofOptions (settings.filterMap Setting.resolution?)).has o = true ↔
        .resolution o ∈ settings := by
    rw [has_ofOptions, List.contains_iff_mem, Setting.mem_filterMap_resolution?]
  simp only [ofSettings, bind_eq_ok_iff, hh, pure, Except.pure, Except.ok.injEq]
  constructor
  · rintro ⟨_, hs, rfl⟩
    exact ⟨hs, ho⟩
  · rintro ⟨hs, hp⟩
    refine ⟨(), hs, Policy.ext_has fun o => ?_⟩
    rw [Bool.eq_iff_iff, ho, hp]

/-- Settings fail to make a set of options only for a value that cannot be a member of a set. -/
theorem Policy.error_of_ofSettings {settings : List Setting} {error : Error}
    (h : Policy.ofSettings settings = .error error) : ∃ v, error = .unhashable v := by
  rcases bind_eq_error_iff.mp h with hc | ⟨_, _, hmade⟩
  · exact error_of_checkHashable hc
  · cases hmade

/-- Settings that can be members of a set make a set of options. -/
theorem Setting.Hashable.exists_policy {settings : List Setting} (hs : Hashable settings) :
    ∃ policy, Policy.ofSettings settings = .ok policy := by
  refine ⟨Policy.ofOptions (settings.filterMap resolution?), Policy.ofSettings_eq_ok_iff.mpr ?_⟩
  refine ⟨hs, fun o => ?_⟩
  rw [Policy.has_ofOptions, List.contains_iff_mem, mem_filterMap_resolution?]

end FormalGrammar

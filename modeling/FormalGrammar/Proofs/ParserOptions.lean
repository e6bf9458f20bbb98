import FormalGrammar.Parsing
import FormalGrammar.Properties
import FormalGrammar.Proofs.Closing
import FormalGrammar.Proofs.Outcome

/-!
# What parser options ask for

Parser options are divided between the reader and the resolution. Only which of
them are among the settings matters to either, so that neither order nor
repetitions do, and what a build makes of the reader's builder is what parsing
comes to. The first setting that is no parser option ends it before it begins.
-/

namespace FormalGrammar

/-- The parser option that asks for an option of the reader. -/
def ReaderOption.parser : ReaderOption → ParserOption
  | .failOnUnknownAttribute => .failOnUnknownAttribute

/-- The parser option that asks for an option of the resolution. -/
def ResolutionOption.parser : ResolutionOption → ParserOption
  | .skipUnused => .skipUnused
  | .ignoreUnused => .ignoreUnused
  | .allowRootless => .allowRootless

/-- Whether a mode of reading and a list of resolution options are just what settings ask for. -/
structure Setting.AskFor (settings : List Setting) (mode : ReaderMode)
    (asked : List ResolutionOption) : Prop where
  reader : ∀ o, mode.has o = true ↔ .parser o.parser ∈ settings
  resolution : ∀ o, o ∈ asked ↔ .parser o.parser ∈ settings

/-- Settings ask for one mode of reading. -/
theorem Setting.AskFor.mode_eq {settings : List Setting} {mode mode' : ReaderMode}
    {asked asked' : List ResolutionOption} (h : AskFor settings mode asked)
    (h' : AskFor settings mode' asked') : mode = mode' := by
  obtain ⟨fail⟩ := mode
  obtain ⟨fail'⟩ := mode'
  have hfail : fail = true ↔ fail' = true :=
    (h.reader .failOnUnknownAttribute).trans (h'.reader .failOnUnknownAttribute).symm
  rw [Bool.eq_iff_iff.mpr hfail]

/-- The options in force are those that are listed as such. -/
theorem Policy.mem_options {policy : Policy} {o : ResolutionOption} :
    o ∈ policy.options ↔ policy.has o = true := by
  simp [options, ResolutionOption.mem_all]

namespace ParserOption

variable {options others : List ParserOption} {settings : List Setting}

/-! ## Dividing options -/

/-- The options for the reader are those asked for. -/
theorem mem_filterMap_reader? {o : ReaderOption} :
    o ∈ options.filterMap reader? ↔ o.parser ∈ options :=
  mem_filterMap_iff fun p o => by cases o; cases p <;> simp [reader?, ReaderOption.parser]

/-- The options for the resolution are those asked for. -/
theorem mem_filterMap_resolution? {o : ResolutionOption} :
    o ∈ options.filterMap resolution? ↔ o.parser ∈ options :=
  mem_filterMap_iff fun p o => by
    cases p <;> cases o <;> simp [resolution?, ResolutionOption.parser]

/-- Settings are accepted exactly if all of them are parser options, and then as what they are. -/
theorem ofSettings_eq_ok_iff :
    ofSettings settings = .ok options ↔ settings = options.map .parser := by
  induction settings generalizing options with
  | nil => cases options <;> simp [ofSettings]
  | cons s settings ih =>
    cases s with
    | parser o =>
      simp only [ofSettings, Setting.parser?, bind_eq_ok_iff, ih, pure, Except.pure,
        Except.ok.injEq]
      constructor
      · rintro ⟨os, rfl, rfl⟩
        rfl
      · intro h
        cases options with
        | nil => cases h
        | cons p os =>
          obtain ⟨hp, hos⟩ := List.cons.inj h
          cases hp
          exact ⟨os, hos, rfl⟩
    | _ => cases options <;> simp [ofSettings, Setting.parser?]

/-- Settings are refused for the first of them that is no parser option. -/
theorem error_of_ofSettings {e : Error} (h : ofSettings settings = .error e) :
    ∃ (options : List ParserOption) (s : Setting) (after : List Setting),
      settings = options.map .parser ++ s :: after ∧ (∀ o, s ≠ .parser o) ∧
        e = .unknownOption s := by
  induction settings with
  | nil => cases h
  | cons s settings ih =>
    cases s with
    | parser o =>
      simp only [ofSettings, Setting.parser?] at h
      rcases bind_eq_error_iff.mp h with hrest | ⟨_, _, hmade⟩
      · obtain ⟨options, s, after, rfl, hs, he⟩ := ih hrest
        exact ⟨o :: options, s, after, rfl, hs, he⟩
      · cases hmade
    | _ =>
      simp only [ofSettings, Setting.parser?, Except.error.injEq] at h
      exact ⟨[], _, settings, rfl, nofun, h.symm⟩

/-- Settings are refused if one of them is no parser option. -/
theorem exists_error_of_ofSettings {s : Setting} (hm : s ∈ settings) (hno : ∀ o, s ≠ .parser o) :
    ∃ e, ofSettings settings = .error e := by
  cases hs : ofSettings settings with
  | error e => exact ⟨e, rfl⟩
  | ok options =>
    obtain rfl := ofSettings_eq_ok_iff.mp hs
    obtain ⟨o, _, he⟩ := List.mem_map.mp hm
    exact absurd he.symm (hno o)

/-- Settings that are all parser options are a list of them. -/
theorem exists_parserOptions (h : ∀ s ∈ settings, ∃ o, s = .parser o) :
    ∃ options : List ParserOption, settings = options.map .parser := by
  cases hs : ofSettings settings with
  | ok options => exact ⟨options, ofSettings_eq_ok_iff.mp hs⟩
  | error e =>
    obtain ⟨options, s, after, rfl, hno, _⟩ := error_of_ofSettings hs
    obtain ⟨o, he⟩ := h s (List.mem_append_right _ List.mem_cons_self)
    exact absurd he (hno o)

/-- Parser options are divided into those for the reader and those for the resolution. -/
theorem divide_parserOptions (options : List ParserOption) :
    divide (options.map .parser) =
      .ok (ReaderMode.ofOptions (options.filterMap reader?),
        Policy.ofOptions (options.filterMap resolution?)) :=
  bind_eq_ok_iff.mpr ⟨options, ofSettings_eq_ok_iff.mpr rfl, rfl⟩

/-- The two parts are what the settings ask for. -/
theorem askFor_of_divide {mode : ReaderMode} {policy : Policy}
    (h : divide settings = .ok (mode, policy)) :
    Setting.AskFor settings mode policy.options := by
  obtain ⟨options, hs, hmade⟩ := bind_eq_ok_iff.mp h
  obtain rfl := ofSettings_eq_ok_iff.mp hs
  cases hmade
  have hmem (p : ParserOption) : .parser p ∈ options.map Setting.parser ↔ p ∈ options := by
    simp
  refine ⟨fun o => ?_, fun o => ?_⟩
  · rw [ReaderMode.has_ofOptions, List.contains_iff_mem, mem_filterMap_reader?, hmem]
  · rw [Policy.mem_options, Policy.has_ofOptions, List.contains_iff_mem,
      mem_filterMap_resolution?, hmem]

/-- The same parser options are divided into the same parts. -/
theorem divide_congr (h : ∀ o, o ∈ options ↔ o ∈ others) :
    divide (options.map .parser) = divide (others.map .parser) := by
  have hmode : ReaderMode.ofOptions (options.filterMap reader?) =
      ReaderMode.ofOptions (others.filterMap reader?) :=
    ReaderMode.ofOptions_congr fun o => by rw [mem_filterMap_reader?, mem_filterMap_reader?, h]
  have hpolicy : Policy.ofOptions (options.filterMap resolution?) =
      Policy.ofOptions (others.filterMap resolution?) :=
    Policy.ofOptions_congr fun o => by
      rw [mem_filterMap_resolution?, mem_filterMap_resolution?, h]
  rw [divide_parserOptions, divide_parserOptions, hmode, hpolicy]

/-- The settings for properties are the options with a property of their name that is on. -/
theorem mem_settings_ofProperties {properties : List (String × Value)} {s : Setting} :
    s ∈ (ofProperties properties).map .parser ↔
      ∃ o v, s = .parser o ∧ properties.lookup o.name = some v ∧ v.turnsOn = true := by
  simp only [List.mem_map, mem_ofProperties]
  constructor
  · rintro ⟨o, ⟨v, hv⟩, rfl⟩
    exact ⟨o, v, rfl, hv⟩
  · rintro ⟨o, v, rfl, hv⟩
    exact ⟨o, ⟨v, hv⟩, rfl⟩

end ParserOption

namespace Builder

variable {b : Builder} {threshold : Level}

/-- A build closes a builder exactly if it succeeds, and a builder that was closed stays so. -/
theorem built_build_iff {settings : List Setting} :
    (b.build threshold settings).1.built = true ↔
      b.built = true ∨ ∃ g, (b.resolve threshold settings).outcome = .ok g := by
  cases ho : (b.resolve threshold settings).outcome <;> simp [build, ho]

/-- The same resolution options are built the same. -/
theorem build_congr {asked others : List ResolutionOption} (h : ∀ o, o ∈ asked ↔ o ∈ others) :
    b.build threshold (asked.map .resolution) = b.build threshold (others.map .resolution) := by
  have hhashable (os : List ResolutionOption) : Setting.Hashable (os.map .resolution) := by
    intro v hv
    simp at hv
  have hsame : Setting.SameOptions (asked.map .resolution) (others.map .resolution) :=
    Or.inr ⟨hhashable asked, hhashable others, by simpa using h⟩
  simp only [build, resolve, hsame.ofSettings_eq]

end Builder

/-! ## Parsing -/

section Parse

variable {σ ε : Type} {threshold : Level} {read : σ → ReaderMode → Except ε Builder} {source : σ}
  {settings : List Setting} {mode : ReaderMode} {asked : List ResolutionOption}

/-- Settings that are all parser options are divided. -/
theorem exists_divide (hs : ∀ s ∈ settings, ∃ o, s = .parser o) :
    ∃ mode policy, ParserOption.divide settings = .ok (mode, policy) := by
  obtain ⟨options, rfl⟩ := ParserOption.exists_parserOptions hs
  exact ⟨_, _, ParserOption.divide_parserOptions options⟩

/-- If the settings are refused, the reader is not called. -/
theorem parse_of_refused {e : Error} (h : ParserOption.ofSettings settings = .error e) :
    parse threshold read source settings = ⟨none, none, .error (.library e), []⟩ := by
  have hd : ParserOption.divide settings = .error e := bind_eq_error_iff.mpr (Or.inl h)
  simp only [parse, hd]

/-- The reader gets the mode that parser options ask for, and its error is passed on. -/
theorem parse_of_reader_error (hs : ∀ s ∈ settings, ∃ o, s = .parser o)
    (ha : Setting.AskFor settings mode asked) {e : ε} (hread : read source mode = .error e) :
    parse threshold read source settings = ⟨some mode, none, .error (.reader e), []⟩ := by
  obtain ⟨mode', policy, hd⟩ := exists_divide hs
  obtain rfl := ha.mode_eq (ParserOption.askFor_of_divide hd)
  simp only [parse, hd, hread]

/-- What the reader makes is built under any list of the resolution options that parser options ask
for. -/
theorem parse_of_reader_ok (threshold : Level) (hs : ∀ s ∈ settings, ∃ o, s = .parser o)
    (ha : Setting.AskFor settings mode asked) {b : Builder} (hread : read source mode = .ok b) :
    parse threshold read source settings =
      ⟨some mode, some (b.build threshold (asked.map .resolution)).1,
        (b.build threshold (asked.map .resolution)).2.outcome.mapError .library,
        (b.build threshold (asked.map .resolution)).2.log⟩ := by
  obtain ⟨mode', policy, hd⟩ := exists_divide hs
  have hdivided := ParserOption.askFor_of_divide hd
  obtain rfl := ha.mode_eq hdivided
  have hbuild : b.build threshold (policy.options.map .resolution) =
      b.build threshold (asked.map .resolution) :=
    Builder.build_congr fun o => (hdivided.resolution o).trans (ha.resolution o).symm
  simp only [parse, hd, hread, hbuild]

/-- The same parser options are parsed the same. -/
theorem parse_congr {others : List Setting} (hs : ∀ s ∈ settings, ∃ o, s = .parser o)
    (h : ∀ s, s ∈ settings ↔ s ∈ others) :
    parse threshold read source settings = parse threshold read source others := by
  obtain ⟨options, rfl⟩ := ParserOption.exists_parserOptions hs
  obtain ⟨options', rfl⟩ := ParserOption.exists_parserOptions fun s hm => hs s ((h s).mpr hm)
  have hmem (o : ParserOption) : o ∈ options ↔ o ∈ options' := by
    simpa using h (.parser o)
  simp only [parse, ParserOption.divide_congr hmem]

/-- Parsing succeeds exactly if the resolution does. -/
theorem mapError_library_eq_ok_iff {outcome : Except Error Grammar} {g : Grammar} :
    outcome.mapError (ParseFailure.library (ε := ε)) = .ok g ↔ outcome = .ok g := by
  cases outcome <;> simp [Except.mapError]

end Parse

/-- To parse is to divide the options, to read, and to build, whatever the reader. The first
setting that is no parser option is refused, and the reader is not called. If there is none, the
reader gets the options meant for it; its error comes out as it is, and what it makes is built
under the options meant for the resolution, given in any order and number, and is closed afterwards
if it was before or parsing succeeds. Settings with the same members are parsed the same. So are
the options that properties turn on, in whatever order they are listed. -/
theorem parse_divides {σ ε : Type} (threshold : Level) (read : σ → ReaderMode → Except ε Builder)
    (source : σ) (settings : List Setting) :
    ((∃ s ∈ settings, ∀ o, s ≠ .parser o) →
      ∃ (options : List ParserOption) (s : Setting) (after : List Setting),
        settings = options.map .parser ++ s :: after ∧ (∀ o, s ≠ .parser o) ∧
        parse threshold read source settings =
          ⟨none, none, .error (.library (.unknownOption s)), []⟩) ∧
    ((∀ s ∈ settings, ∃ o, s = .parser o) →
      (∃ mode asked, Setting.AskFor settings mode asked) ∧
      (∀ mode asked, Setting.AskFor settings mode asked →
        (∀ e, read source mode = .error e →
          parse threshold read source settings = ⟨some mode, none, .error (.reader e), []⟩) ∧
        ∀ b, read source mode = .ok b →
          let building := b.build threshold (asked.map .resolution)
          parse threshold read source settings =
            ⟨some mode, some building.1, building.2.outcome.mapError .library, building.2.log⟩ ∧
          (building.1.built = true ↔
            b.built = true ∨ ∃ g, (parse threshold read source settings).outcome = .ok g)) ∧
      ∀ others, (∀ s, s ∈ settings ↔ s ∈ others) →
        parse threshold read source settings = parse threshold read source others) ∧
    ∀ properties : List (String × Value),
      (∀ s, s ∈ settings ↔ ∃ o v, s = .parser o ∧ properties.lookup o.name = some v ∧
        v.turnsOn = true) →
      parse threshold read source settings =
        parse threshold read source ((ParserOption.ofProperties properties).map .parser) := by
  refine ⟨?_, fun hs => ⟨?_, fun mode asked ha => ⟨?_, ?_⟩, fun others h => parse_congr hs h⟩, ?_⟩
  · rintro ⟨s, hm, hno⟩
    obtain ⟨e, he⟩ := ParserOption.exists_error_of_ofSettings hm hno
    obtain ⟨options, s, after, rfl, hno, rfl⟩ := ParserOption.error_of_ofSettings he
    exact ⟨options, s, after, rfl, hno, parse_of_refused he⟩
  · obtain ⟨mode, policy, hd⟩ := exists_divide hs
    exact ⟨mode, policy.options, ParserOption.askFor_of_divide hd⟩
  · exact fun e hread => parse_of_reader_error hs ha hread
  · intro b hread
    have hparse := parse_of_reader_ok threshold hs ha hread
    refine ⟨hparse, ?_⟩
    rw [Builder.built_build_iff, hparse]
    simp only [mapError_library_eq_ok_iff, Builder.build_snd]
  · intro properties hp
    refine parse_congr (fun s hs => ?_) fun s =>
      (hp s).trans ParserOption.mem_settings_ofProperties.symm
    obtain ⟨o, _, he, _⟩ := (hp s).mp hs
    exact ⟨o, he⟩

/-- A reader that makes the sample, but only if it is asked to be strict. -/
def strictReader (source : String) (mode : ReaderMode) : Except String Builder :=
  if mode.failOnUnknownAttribute then .ok Builder.sample else .error source

/-- Settings for a strict reader and for pruning, one of them given twice. -/
def strictPruning : List Setting :=
  [.parser .allowRootless, .parser .failOnUnknownAttribute, .parser .skipUnused,
    .parser .allowRootless]

/-- The strict reader is asked to be strict, and the sample that it makes is pruned and closed. In
another order, without the repetition, the same comes out. Without options the error of the reader
does, and with a value that is none it is not called. -/
theorem parse_divides_sample :
    (∀ s ∈ strictPruning, ∃ o, s = .parser o) ∧
      Setting.AskFor strictPruning ⟨true⟩ [.skipUnused, .allowRootless] ∧
      (parse .debug strictReader "sums" strictPruning).outcome = .ok Builder.prunedSample ∧
      (Builder.sample.build .debug Builder.pruning).1.built = true ∧
      parse .debug strictReader "sums" strictPruning =
        parse .debug strictReader "sums" [.parser .failOnUnknownAttribute, .parser .skipUnused,
          .parser .allowRootless] ∧
      parse .debug strictReader "sums" [] = ⟨some ⟨false⟩, none, .error (.reader "sums"), []⟩ ∧
      parse .debug strictReader "sums" [.parser .skipUnused, .value .null] =
        ⟨none, none, .error (.library (.unknownOption (.value .null))), []⟩ := by
  have hs : ∀ s ∈ strictPruning, ∃ o, s = .parser o := by simp [strictPruning]
  have hask : Setting.AskFor strictPruning ⟨true⟩ [.skipUnused, .allowRootless] := by
    refine ⟨fun o => ?_, fun o => ?_⟩ <;> cases o <;>
      simp [strictPruning, ReaderOption.parser, ResolutionOption.parser, ReaderMode.has]
  have hnone : Setting.AskFor [] ⟨false⟩ [] := by
    refine ⟨fun o => ?_, fun o => ?_⟩ <;> cases o <;> simp [ReaderMode.has]
  obtain ⟨_, hall, _⟩ := parse_divides .debug strictReader "sums" strictPruning
  obtain ⟨_, hparse, hsame⟩ := hall hs
  obtain ⟨hparsed, hclosed⟩ := (hparse _ _ hask).2 Builder.sample rfl
  have hpruned : (parse .debug strictReader "sums" strictPruning).outcome =
      .ok Builder.prunedSample := by
    rw [hparsed]
    exact mapError_library_eq_ok_iff.mpr
      ((congrArg Resolution.outcome (Builder.build_snd ..)).trans Builder.resolve_sample)
  obtain ⟨_, hempty, _⟩ := parse_divides .debug strictReader "sums" []
  obtain ⟨hrefused, _⟩ :=
    parse_divides .debug strictReader "sums" [.parser .skipUnused, .value .null]
  refine ⟨hs, hask, hpruned, hclosed.mpr (Or.inr ⟨_, hpruned⟩), hsame _ fun s => ?_,
    ((hempty (List.forall_mem_nil _)).2.1 _ _ hnone).1 "sums" rfl, ?_⟩
  · simp [strictPruning, or_comm, or_left_comm]
  · obtain ⟨options, s, after, he, hno, hresult⟩ := hrefused ⟨.value .null, by simp, by simp⟩
    -- the null value is the only setting that is no parser option
    have hmem : s ∈ [Setting.parser .skipUnused, .value .null] := by
      rw [he]
      exact List.mem_append_right _ List.mem_cons_self
    simp only [List.mem_cons, List.not_mem_nil, or_false] at hmem
    rcases hmem with rfl | rfl
    · exact absurd rfl (hno _)
    · exact hresult

end FormalGrammar

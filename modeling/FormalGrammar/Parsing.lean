import FormalGrammar.Grammar.Resolution

/-!
# Parsing

To parse is to divide the options between the reader and the resolution, to let
the reader make a builder from a source, and to build it. The reader is any
function; what it fails with is passed on as it is.
-/

namespace FormalGrammar

/-- Check that all settings are parser options; the first that is not is reported. -/
def ParserOption.ofSettings : List Setting → Except Error (List ParserOption)
  | [] => .ok []
  | setting :: settings =>
    match setting.parser? with
    | none => .error (.unknownOption setting)
    | some o => do
      let os ← ParserOption.ofSettings settings
      return o :: os

/-- Divide parser options between the reader and the resolution. -/
def ParserOption.divide (settings : List Setting) : Except Error (ReaderMode × Policy) := do
  let options ← ParserOption.ofSettings settings
  return (ReaderMode.ofOptions (options.filterMap ParserOption.reader?),
    Policy.ofOptions (options.filterMap ParserOption.resolution?))

/-- Why parsing failed: because of the reader or for a reason of its own. -/
inductive ParseFailure (ε : Type) where
  | reader (error : ε)
  | library (error : Error)

/-- What became of parsing. -/
structure Parsing (ε : Type) where
  /-- The options that the reader got, if it was called. -/
  mode : Option ReaderMode
  /-- The builder that the reader made, as it is afterwards. -/
  builder : Option Builder
  outcome : Except (ParseFailure ε) Grammar
  log : List Report

/-- Parse a source with a reader. -/
def parse {σ ε : Type} (threshold : Level) (read : σ → ReaderMode → Except ε Builder)
    (source : σ) (settings : List Setting) : Parsing ε :=
  match ParserOption.divide settings with
  | .error error => ⟨none, none, .error (.library error), []⟩
  | .ok (mode, policy) =>
    match read source mode with
    | .error error => ⟨some mode, none, .error (.reader error), []⟩
    | .ok builder =>
      let (after, resolution) :=
        builder.build threshold (policy.options.map Setting.resolution)
      ⟨some mode, some after, resolution.outcome.mapError .library, resolution.log⟩

end FormalGrammar

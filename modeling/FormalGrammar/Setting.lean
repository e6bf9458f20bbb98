import FormalGrammar.Term.Display

/-!
# Settings

A resolution and the reading of a document each have options of their own, and
one list of parser options serves both. Callers hand over settings, which may
also be arbitrary values: a resolution passes over what is not one of its
options, while a list of parser options admits nothing else.

A set of options is kept as a record of switches, so that two lists with the
same members, in any order and with any repetitions, give the same record.
-/

namespace FormalGrammar

/-- What a resolution may be asked to do. -/
inductive ResolutionOption where
  /-- Leave out the productions that no root reaches. -/
  | skipUnused
  /-- Keep the productions that no root reaches. -/
  | ignoreUnused
  /-- Admit a grammar without productions, and count what nothing else refers to as a root. -/
  | allowRootless
  deriving DecidableEq, Repr

/-- What a document reader may be asked to do. -/
inductive ReaderOption where
  /-- Refuse a document with an attribute that has no meaning. -/
  | failOnUnknownAttribute
  deriving DecidableEq, Repr

/-- The options of reading and resolving together. -/
inductive ParserOption where
  | failOnUnknownAttribute
  | skipUnused
  | ignoreUnused
  | allowRootless
  deriving DecidableEq, Repr

namespace ResolutionOption

/-- The name of a resolution option. -/
def name : ResolutionOption → String
  | .skipUnused => "SKIP_UNUSED_PRODUCTIONS"
  | .ignoreUnused => "IGNORE_UNUSED_PRODUCTIONS"
  | .allowRootless => "ALLOW_ROOTLESS"

/-- The resolution options in the order of their names. -/
def all : List ResolutionOption := [.allowRootless, .ignoreUnused, .skipUnused]

theorem mem_all (o : ResolutionOption) : o ∈ all := by
  cases o <;> decide

end ResolutionOption

namespace ReaderOption

/-- The name of a reader option. -/
def name : ReaderOption → String
  | .failOnUnknownAttribute => "FAIL_ON_UNKNOWN_ATTRIBUTE"

/-- The reader options in the order of their names. -/
def all : List ReaderOption := [.failOnUnknownAttribute]

end ReaderOption

namespace ParserOption

/-- The name of a parser option. -/
def name : ParserOption → String
  | .failOnUnknownAttribute => "FAIL_ON_UNKNOWN_ATTRIBUTE"
  | .skipUnused => "SKIP_UNUSED_PRODUCTIONS"
  | .ignoreUnused => "IGNORE_UNUSED_PRODUCTIONS"
  | .allowRootless => "ALLOW_ROOTLESS_GRAMMAR"

/-- The parser options in the order of their names. -/
def all : List ParserOption := [.allowRootless, .failOnUnknownAttribute, .ignoreUnused, .skipUnused]

theorem mem_all (o : ParserOption) : o ∈ all := by
  cases o <;> decide

/-- The reader option that a parser option stands for, if it concerns the reader. -/
def reader? : ParserOption → Option ReaderOption
  | .failOnUnknownAttribute => some .failOnUnknownAttribute
  | .skipUnused | .ignoreUnused | .allowRootless => none

/-- The resolution option that a parser option stands for, if it concerns resolution. -/
def resolution? : ParserOption → Option ResolutionOption
  | .failOnUnknownAttribute => none
  | .skipUnused => some .skipUnused
  | .ignoreUnused => some .ignoreUnused
  | .allowRootless => some .allowRootless

end ParserOption

/-- The set of resolution options in force. -/
structure Policy where
  /-- Leave out the productions that no root reaches; this wins over keeping them. -/
  skipUnused : Bool
  /-- Keep the productions that no root reaches. -/
  ignoreUnused : Bool
  /-- Admit a grammar without productions, and further roots. -/
  allowRootless : Bool
  deriving DecidableEq, Repr

namespace Policy

/-- The set of the listed options. -/
def ofOptions (options : List ResolutionOption) : Policy where
  skipUnused := options.contains .skipUnused
  ignoreUnused := options.contains .ignoreUnused
  allowRootless := options.contains .allowRootless

/-- Whether an option is in force. -/
def has (policy : Policy) : ResolutionOption → Bool
  | .skipUnused => policy.skipUnused
  | .ignoreUnused => policy.ignoreUnused
  | .allowRootless => policy.allowRootless

/-- The options in force, in the order of their names. -/
def options (policy : Policy) : List ResolutionOption := ResolutionOption.all.filter policy.has

/-- An option is in force exactly if it is listed. -/
@[simp]
theorem has_ofOptions (options : List ResolutionOption) (o : ResolutionOption) :
    (ofOptions options).has o = options.contains o := by
  cases o <;> rfl

/-- The same members give the same set. -/
theorem ofOptions_congr {os ps : List ResolutionOption} (h : ∀ o, o ∈ os ↔ o ∈ ps) :
    ofOptions os = ofOptions ps := by
  have hc (o : ResolutionOption) : os.contains o = ps.contains o := by
    rw [Bool.eq_iff_iff, List.contains_iff_mem, List.contains_iff_mem, h]
  simp only [ofOptions, hc]

end Policy

/-- The set of reader options in force. -/
structure ReaderMode where
  /-- Refuse a document with an attribute that has no meaning. -/
  failOnUnknownAttribute : Bool
  deriving DecidableEq, Repr

namespace ReaderMode

/-- The set of the listed options. -/
def ofOptions (options : List ReaderOption) : ReaderMode where
  failOnUnknownAttribute := options.contains .failOnUnknownAttribute

/-- Whether an option is in force. -/
def has (mode : ReaderMode) : ReaderOption → Bool
  | .failOnUnknownAttribute => mode.failOnUnknownAttribute

/-- The options in force, in the order of their names. -/
def options (mode : ReaderMode) : List ReaderOption := ReaderOption.all.filter mode.has

/-- An option is in force exactly if it is listed. -/
@[simp]
theorem has_ofOptions (options : List ReaderOption) (o : ReaderOption) :
    (ofOptions options).has o = options.contains o := by
  cases o; rfl

/-- The same members give the same set. -/
theorem ofOptions_congr {os ps : List ReaderOption} (h : ∀ o, o ∈ os ↔ o ∈ ps) :
    ofOptions os = ofOptions ps := by
  have hc (o : ReaderOption) : os.contains o = ps.contains o := by
    rw [Bool.eq_iff_iff, List.contains_iff_mem, List.contains_iff_mem, h]
  simp only [ofOptions, hc]

end ReaderMode

/-- What a caller can pass in a list of options. -/
inductive Setting where
  | reader (o : ReaderOption)
  | resolution (o : ResolutionOption)
  | parser (o : ParserOption)
  | value (v : Value)

namespace Setting

/-- The resolution option that a setting is, if it is one. -/
def resolution? : Setting → Option ResolutionOption
  | .resolution o => some o
  | .reader _ | .parser _ | .value _ => none

/-- The parser option that a setting is, if it is one. -/
def parser? : Setting → Option ParserOption
  | .parser o => some o
  | .reader _ | .resolution _ | .value _ => none

/-- The value that a setting is, if it is no option. -/
def value? : Setting → Option Value
  | .value v => some v
  | .reader _ | .resolution _ | .parser _ => none

/-- An option of a group as messages show it, with its name and the same in small letters. -/
def displayMember (group member : String) : String :=
  "<" ++ group ++ "." ++ member ++ ": " ++ Text.quote member.toLower ++ ">"

/-- A setting as messages show it. -/
def display : Setting → String
  | .reader o => displayMember "ReaderOption" o.name
  | .resolution o => displayMember "ResolutionOption" o.name
  | .parser o => displayMember "ParserOption" o.name
  | .value v => v.display

end Setting

end FormalGrammar

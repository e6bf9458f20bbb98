import FormalGrammar.Term.Assembly

/-!
# Attachments

Assemblies are worked on in steps: a term is attached to one of them, or one of
them is built. A step that is refused leaves all assemblies as they are, and so
does building. A value that is no assembly refuses every term.
-/

namespace FormalGrammar.Assembly

/-- What terms are gathered for. -/
inductive Purpose where
  | choice
  | series
  | definition
  deriving DecidableEq, Repr

/-- An assembly to which nothing has been attached. -/
def empty : Purpose → Assembly
  | .choice => .choice []
  | .series => .series []
  | .definition => .definition none

/-- What a term is to be attached to. -/
inductive Target (ι : Type) where
  /-- The assembly at a place. -/
  | assembly (place : ι)
  /-- A value, which is no assembly. -/
  | value (v : Value)

/-- What can be done with assemblies. -/
inductive Step (ι : Type) where
  | attach (term : Term) (target : Target ι)
  | build (place : ι)

/-- What comes of a step. -/
inductive Answer where
  | attached (outcome : Except Error Unit)
  | built (outcome : Except Error Term)

/-- The error in an answer, if the step was refused. -/
def Answer.error? : Answer → Option Error
  | .attached (.error e) | .built (.error e) => some e
  | .attached (.ok ()) | .built (.ok _) => none

variable {ι : Type} [DecidableEq ι]

/-- Take one step with the assemblies at all places. -/
def step (bench : ι → Assembly) : Step ι → (ι → Assembly) × Answer
  | .attach term (.assembly place) =>
    match (bench place).attach term with
    | .ok gathered =>
      (fun other => if other = place then gathered else bench other, .attached (.ok ()))
    | .error e => (bench, .attached (.error e))
  | .attach _ (.value v) => (bench, .attached (.error (.notATarget v)))
  | .build place => (bench, .built (bench place).build)

/-- The assemblies after steps in order. -/
def run (bench : ι → Assembly) (steps : List (Step ι)) : ι → Assembly :=
  steps.foldl (fun bench s => (step bench s).1) bench

end FormalGrammar.Assembly

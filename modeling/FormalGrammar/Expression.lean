import FormalGrammar.Operation

/-!
# Expressions

An expression is a value, a variable or an operation on expressions. A template
can be nested in itself a number of times around a start. The arguments of an
operation are evaluated from left to right, and the first error is the answer.
-/

namespace FormalGrammar

/-- A description of how to make a value. -/
inductive Expression where
  | value (v : Value)
  | variable (name : String)
  /-- The place in a template for what it is nested around. -/
  | hole
  | nest (count : Nat) (template start : Expression)
  | call (operation : Operation) (arguments : List Expression)

instance : Inhabited Expression := ⟨.hole⟩

/-- Apply a step that may fail a number of times. -/
def iterate {α : Type} (step : α → Except Error α) : Nat → α → Except Error α
  | 0, x => .ok x
  | n + 1, x => do iterate step n (← step x)

/-- What a variable or a hole holds; it is an error for it to hold nothing. -/
def held : Option Value → Except Error Value
  | some v => .ok v
  | none => .error .misapplied

namespace Expression

mutual

/-- The value of an expression, where the scope gives the variables and the content the hole. -/
def evalWith (scope : String → Option Value) (content : Option Value) :
    Expression → Except Error Value
  | .value v => .ok v
  | .variable name => held (scope name)
  | .hole => held content
  | .nest count template start => do
    let v ← start.evalWith scope content
    iterate (fun inner => template.evalWith scope (some inner)) count v
  | .call operation arguments => do
    let vs ← evalAllWith scope content arguments
    return .term (← operation.apply vs)
termination_by structural e => e

/-- The values of expressions, evaluated from left to right. -/
def evalAllWith (scope : String → Option Value) (content : Option Value) :
    List Expression → Except Error (List Value)
  | [] => .ok []
  | e :: es => do
    let v ← e.evalWith scope content
    let vs ← evalAllWith scope content es
    return v :: vs
termination_by structural es => es

end

/-- The value of an expression. -/
def eval (scope : String → Option Value) (e : Expression) : Except Error Value :=
  e.evalWith scope none

/-- The values of expressions. -/
def evalAll (scope : String → Option Value) (es : List Expression) :
    Except Error (List Value) :=
  evalAllWith scope none es

/-- The values of expressions that become members of a set. Each has to be able to be one before
the next expression is evaluated. -/
def evalMembers (scope : String → Option Value) : List Expression → Except Error (List Value)
  | [] => .ok []
  | e :: es => do
    let v ← e.eval scope
    checkHashable [v]
    let vs ← evalMembers scope es
    return v :: vs

end Expression

end FormalGrammar

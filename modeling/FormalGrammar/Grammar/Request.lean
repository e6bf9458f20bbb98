import FormalGrammar.Grammar.Resolution

/-!
# Requests to a builder

A builder is used through requests, one after the other. Each gets a reply, and
the builder goes on to the next in the state that the reply leaves it in.
-/

namespace FormalGrammar

/-- What can be asked of a builder. -/
inductive Request where
  /-- Add a production that chooses between one term or more. -/
  | add (name first : Value) (rest : List Value) (location : String)
  | setHeader (header : Value)
  /-- Resolve the builder and close it if that succeeds. -/
  | build (settings : List Setting)
  /-- Resolve the builder and leave it as it is. -/
  | resolve (settings : List Setting)

/-- What a builder answers. -/
inductive Reply where
  | changed (outcome : Except Error Unit)
  | resolution (resolution : Resolution)

/-- The error in a reply, if the request failed. -/
def Reply.error? : Reply → Option Error
  | .changed (.error e) => some e
  | .changed (.ok ()) => none
  | .resolution r =>
    match r.outcome with
    | .error e => some e
    | .ok _ => none

namespace Builder

/-- Take over a change, unless it was refused. -/
def adopt (b : Builder) : Except Error Builder → Builder × Reply
  | .ok changed => (changed, .changed (.ok ()))
  | .error e => (b, .changed (.error e))

/-- Answer one request. -/
def step (threshold : Level) (b : Builder) : Request → Builder × Reply
  | .add name first rest location => b.adopt (b.add name first rest location)
  | .setHeader header => b.adopt (b.setHeader header)
  | .build settings =>
    let (after, resolution) := b.build threshold settings
    (after, .resolution resolution)
  | .resolve settings => (b, .resolution (b.resolve threshold settings))

/-- Answer requests in order. -/
def run (threshold : Level) (b : Builder) : List Request → Builder × List Reply
  | [] => (b, [])
  | request :: requests =>
    let (after, reply) := b.step threshold request
    let (last, replies) := after.run threshold requests
    (last, reply :: replies)

end Builder

end FormalGrammar

import Linkage.Visit.Chain

/-! A sink and a receiver that record what they get and can be told to refuse. -/
namespace Linkage

/-- The events and references received so far. -/
structure Recorder where
  events : Array Event := #[]
  edges : Array Access := #[]
deriving Repr

namespace Recorder

/-- What a recorder refuses. -/
structure Policy (ε : Type) where
  /-- The error of a refusal. -/
  refusal : ε
  /-- The number of the event that is recorded and then fails. -/
  failAt : Option Nat := none
  /-- Classes are recorded and declined. -/
  declineClasses : Bool := false
  /-- The names of the methods that are recorded and declined. -/
  declinedMethods : List String := []
  /-- The number of collected references at which further ones are refused. -/
  edgeLimit : Option Nat := none

variable {ε : Type}

/-- Records every event. -/
def sink (policy : Policy ε) : Sink Recorder ε := fun event => do
  let index := (← get).events.size
  modify fun r => { r with events := r.events.push event }
  if policy.failAt = some index then throw (.failed policy.refusal)
  match event with
  | .declare _ => return !policy.declineClasses
  | .method decl => return decide (decl.name ∉ policy.declinedMethods)
  | _ => return true

/-- Collects references up to the limit. -/
def receiver (policy : Policy ε) : Receiver Recorder ε := fun access => do
  if policy.edgeLimit = some (← get).edges.size then throw (.failed policy.refusal)
  modify fun r => { r with edges := r.edges.push access }

end Recorder

end Linkage

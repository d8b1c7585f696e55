import Linkage.Jvm.Event
import Linkage.Member
import Linkage.Run

/-!
Chains of stages that pass on the events of a class to a sink. A stage either only passes them on or also reports the
member references among them. What a chain opens for a class or a method is a value that later events are sent with,
so several classes and methods may be open at once.
-/
namespace Linkage

/-- Why a chain refuses an event. -/
inductive StageError (ε : Type) where
  /-- A class was declared without a name. -/
  | undeclaredClass
  /-- The sink or a receiver of references failed. -/
  | failed (error : ε)
deriving Repr, DecidableEq

namespace StageError

def message {ε : Type} (text : ε → String) : StageError ε → String
  | .undeclaredClass => "dependency: class visited without a declared name"
  | .failed error => text error

end StageError

/-- What a chain does with an event. -/
abbrev Visit (σ ε : Type) := Run σ (StageError ε)

/-- The end of a chain: takes an event and answers, for the declaration of a class or a method, whether it wants the
events inside. -/
abbrev Sink (σ ε : Type) := Event → Visit σ ε Bool

/-- Takes every class and wants no method. -/
def Sink.discard {σ ε : Type} : Sink σ ε
  | .declare _ => return true
  | _ => return false

/-- Takes a member reference. -/
abbrev Receiver (σ ε : Type) := Access → Visit σ ε Unit

inductive Stage (σ ε : Type) where
  /-- Passes every event on. -/
  | forward
  /-- Reports each reference before it passes the instruction on. -/
  | dependency (receiver : Receiver σ ε)

/-- A class that a chain has been told of; `reaches` if the sink wants its events. -/
structure OpenClass where
  name : String
  reaches : Bool
deriving Repr, DecidableEq

/-- A method that a chain has been told of; `reaches` if the sink wants its events. -/
structure OpenMethod where
  source : Member
  reaches : Bool
deriving Repr, DecidableEq

namespace CodeEvent

/-- The member that an instruction refers to. -/
def reference : CodeEvent → Option Member
  | .fieldInsn _ owner name _ => some ⟨owner, name⟩
  | .methodInsn _ owner name _ _ => some ⟨owner, name⟩
  | _ => none

/-- The reference that an event of `source` makes, if it is reported. -/
def access? (source : Member) (event : CodeEvent) : Option Access :=
  match event.reference with
  | some dest => if dest.owner = rootClass then none else some ⟨source, dest⟩
  | none => none

end CodeEvent

/-- Stages, the first to see an event first, and the sink behind them. -/
structure Chain (σ ε : Type) where
  stages : List (Stage σ ε)
  sink : Sink σ ε

namespace Chain

variable {σ ε : Type}

/-- Declares a class. Without a stage that reports references the class is open only if the sink wants it. -/
def declare (chain : Chain σ ε) (header : Option Header) : Visit σ ε (Option OpenClass) :=
  go chain.stages
where
  name : String := (header.map (·.name)).getD ""
  go : List (Stage σ ε) → Visit σ ε (Option OpenClass)
    | [] => do
      if ← chain.sink (.declare header) then return some ⟨name, true⟩ else return none
    | .forward :: rest => go rest
    | .dependency _ :: rest => do
      if name = "" then throw .undeclaredClass
      let next ← go rest
      return some ⟨name, next.any (·.reaches)⟩

/-- Passes on an event of an open class. -/
def member (chain : Chain σ ε) (c : OpenClass) (event : MemberEvent) : Visit σ ε Unit := do
  if c.reaches then
    let _ ← chain.sink (.member event)

/-- Declares a method of an open class. -/
def method (chain : Chain σ ε) (c : OpenClass) (decl : MethodDecl) : Visit σ ε (Option OpenMethod) :=
  go chain.stages
where
  source : Member := ⟨c.name, decl.name⟩
  go : List (Stage σ ε) → Visit σ ε (Option OpenMethod)
    | [] => do
      if c.reaches then
        if ← chain.sink (.method decl) then return some ⟨source, true⟩
      return none
    | .forward :: rest => go rest
    | .dependency _ :: rest => do
      let next ← go rest
      return some ⟨source, next.any (·.reaches)⟩

/-- Passes on an event of an open method. -/
def code (chain : Chain σ ε) (m : OpenMethod) (event : CodeEvent) : Visit σ ε Unit :=
  go chain.stages
where
  go : List (Stage σ ε) → Visit σ ε Unit
    | [] => do
      if m.reaches then
        let _ ← chain.sink (.code event)
    | .forward :: rest => go rest
    | .dependency receiver :: rest => do
      if let some access := event.access? m.source then receiver access
      go rest

end Chain

end Linkage

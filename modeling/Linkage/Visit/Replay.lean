import Linkage.Jvm.Trace
import Linkage.Visit.Chain

/-! Telling a class to a chain. -/
namespace Linkage

/-- Why a replay ends early. -/
inductive ReplayFault (ε : Type) where
  | stage (error : StageError ε)
  | body (fault : BodyFault)
deriving Repr

/-- A fault and, if it arose inside the code of a method, that method's name and descriptor. -/
structure ReplayError (ε : Type) where
  method : Option (String × String)
  fault : ReplayFault ε
deriving Repr

namespace ReplayFault

def message {ε : Type} (text : ε → String) : ReplayFault ε → String
  | .stage error => error.message text
  | .body fault => fault.message

end ReplayFault

namespace ReplayError

def message {ε : Type} (text : ε → String) (e : ReplayError ε) : String :=
  match e.method with
  | some (name, descriptor) => s!"method {name}{descriptor}: {e.fault.message text}"
  | none => e.fault.message text

end ReplayError

/-- A replay works on the resolved constants of the class and on the state of the chain. -/
abbrev Replay (σ ε : Type) := ExceptT (ReplayError ε) (StateM (Memo × σ))

namespace Replay

variable {σ ε α : Type}

/-- Lets the chain work; its error is one of the given method's code, if any. -/
def visit (method : Option (String × String)) (step : Visit σ ε α) : Replay σ ε α := fun (memo, s) =>
  match step s with
  | (.ok a, s) => (.ok a, (memo, s))
  | (.error error, s) => (.error ⟨method, .stage error⟩, (memo, s))

/-- Works on the resolved constants only. -/
def resolve (step : StateM Memo α) : Replay σ ε α := fun (memo, s) =>
  let (a, memo) := step memo
  (.ok a, (memo, s))

/-- Tells the code of an open method. -/
def code (chain : Chain σ ε) (pool : Pool) (m : OpenMethod) (decl : MethodDecl) (code : Code) : Replay σ ε Unit := do
  let place := some (decl.name, decl.descriptor)
  let trace ← resolve (code.trace pool)
  trace.events.forM fun event => visit place (chain.code m event)
  if let some fault := trace.fault then throw ⟨place, .body fault⟩

/-- Tells a method, and its body unless the chain declines it. -/
def method (chain : Chain σ ε) (pool : Pool) (c : OpenClass) (m : Method) : Replay σ ε Unit := do
  if let some opened ← visit none (chain.method c m.decl) then
    if let some body := m.code then code chain pool opened m.decl body
    visit none (chain.code opened .finish)

end Replay

namespace ClassFile

variable {σ ε : Type}

/-- The events of a class before its methods. -/
def memberEvents (c : ClassFile) : List MemberEvent :=
  (if c.source = "" then [] else [.source c.source]) ++
    c.attributes.map .uninterpreted ++ c.fields.map .field

/-- Tells the class to a chain: its declaration and, unless the chain declines it, its members, its methods in file
order, and its end. The first error ends the replay. -/
def replay (c : ClassFile) (chain : Chain σ ε) : Replay σ ε Unit := do
  if let some opened ← Replay.visit none (chain.declare (some c.header)) then
    c.memberEvents.forM fun event => Replay.visit none (chain.member opened event)
    c.methods.forM fun m => Replay.method chain c.pool opened m
    Replay.visit none (chain.member opened .finish)

end ClassFile

end Linkage

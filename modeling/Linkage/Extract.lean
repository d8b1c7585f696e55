import Linkage.Jvm.Parse
import Linkage.Visit.Replay

/-! The member references of one class. -/
namespace Linkage

/-- Why the references of a class cannot be extracted. -/
inductive ExtractError (ε : Type) where
  | parse (error : ParseError)
  /-- The replay of the named class failed. -/
  | replay (name : String) (error : ReplayError ε)
deriving Repr

namespace ExtractError

def message {ε : Type} (text : ε → String) : ExtractError ε → String
  | .parse error => error.message
  | .replay name error => s!"failed to analyze {name}: {error.message text}"

end ExtractError

namespace ClassFile

variable {σ ε : Type}

/-- Reports every reference of the class, in program order. -/
def references (c : ClassFile) (receiver : Receiver σ ε) : Run σ (ExtractError ε) Unit := fun s =>
  match c.replay ⟨[.dependency receiver], Sink.discard⟩ ([], s) with
  | (.ok (), (_, s)) => (.ok (), s)
  | (.error error, (_, s)) => (.error (.replay c.name error), s)

/-- Collects the references of a class in program order. -/
def collect (c : ClassFile) : Except (ExtractError Empty) (List Access) :=
  let (outcome, found) := c.references (fun access => modify (·.push access)) (#[] : Array Access)
  outcome.map fun _ => found.toList

end ClassFile

end Linkage

import Linkage.Proofs.Script

/-!
Asking a pool, and telling a class, time after time. Whatever earlier requests have left in the memo, be it that some of
them failed, does not show in the answer to a later one; so a class is told to every audience as if it were the first.
-/
namespace Linkage

namespace Pool

/-- What a pool can be asked for. -/
inductive Request where
  | loadable (index : Nat)
  | callSite (index : Nat)

inductive Reply where
  | value (value : Literal)
  | site (site : CallSite)

namespace Request

/-- The reply by unfolding alone: there is no memo that it could read or write. -/
def unfold (pool : Pool) : Request → Except PoolFault Reply
  | .loadable index => do return .value (← pool.unfold index)
  | .callSite index => do return .site (← pool.unfoldSite index)

end Request

end Pool

/-- Somebody to tell a class to: a chain of stages and the state that it starts in. -/
structure Audience where
  State : Type
  Failure : Type
  chain : Chain State Failure
  start : State

/-- How telling a class ends: well or with an error, and with all that the chain has kept of the events it got. -/
abbrev Audience.Outcome (a : Audience) : Type := Except (ReplayError a.Failure) Unit × a.State

namespace ClassFile

def tell (c : ClassFile) (a : Audience) (memo : Memo) : a.Outcome × Memo :=
  let told := c.replay a.chain (memo, a.start)
  ((told.1, told.2.2), told.2.1)

end ClassFile

end Linkage

import Linkage.Jvm.Pool

/-!
Resolution of loadable constants. A dynamic constant is unfolded into a tree; each one is unfolded once and then
remembered, and one that would contain itself is refused.
-/
namespace Linkage

/-- The dynamic constants resolved so far, by slot. -/
abbrev Memo := List (Nat × Literal)

/-- A resolution; what it has remembered survives its failure. -/
abbrev Resolve := ExceptT PoolFault (StateM Memo)

namespace Pool

/-- A loadable constant before the references inside it are followed. -/
inductive Loadable where
  | value (value : Literal)
  | string (text : Nat)
  | type (name : Nat)
  | methodType (descriptor : Nat)
  | handle
  | dynamic (bootstrap nameAndType : Nat)
deriving Repr

def loadableTags : List Tag :=
  [.integer, .float, .long, .double, .string, .type, .methodType, .methodHandle, .dynamic]

/-- The loadable constant in a slot. -/
def loadableAt (pool : Pool) (index : Nat) : Except PoolFault Loadable :=
  pool.expect index loadableTags fun
    | .integer bits => some (.value (.int bits.toInt32))
    | .float bits => some (.value (.float bits))
    | .long bits => some (.value (.long bits.toInt64))
    | .double bits => some (.value (.double bits))
    | .string text => some (.string text)
    | .type name => some (.type name)
    | .methodType descriptor => some (.methodType descriptor)
    | .methodHandle _ _ => some .handle
    | .dynamic bootstrap nameAndType => some (.dynamic bootstrap nameAndType)
    | _ => none

def bootstrapAt (pool : Pool) (index : Nat) : Except PoolFault Bootstrap :=
  match pool.bootstraps[index]? with
  | some bootstrap => .ok bootstrap
  | none => .error (.bootstrapRange index)

/-- The slots that hold dynamic constants. -/
def dynamicSlots (pool : Pool) : List Nat :=
  (List.range pool.slots.size).filter fun index =>
    match pool.slots[index]? with
    | some (some (.dynamic _ _)) => true
    | _ => false

/-- The value of a loadable constant, where only the dynamic constants in `free` may still be unfolded: the others
are being unfolded already. -/
def loadableWithin (pool : Pool) (free : List Nat) (index : Nat) : Resolve Literal := do
  match ← pool.loadableAt index with
  | .value value => return value
  | .string text => return .string (← pool.utf8 text)
  | .type name => return .type (← pool.utf8 name)
  | .methodType descriptor => return .methodType (← pool.utf8 descriptor)
  | .handle => return .handle (← pool.handle index)
  | .dynamic bootstrap nameAndType =>
    match (← get).lookup index with
    | some value => return value
    | none =>
      if _h : index ∈ free then
        let (name, descriptor) ← pool.nameAndType nameAndType
        let method ← pool.bootstrapAt bootstrap
        let handle ← pool.handle method.handle
        let arguments ← method.arguments.mapM fun argument => pool.loadableWithin (free.erase index) argument
        let value := .dynamic name descriptor (some handle) arguments
        modify ((index, value) :: ·)
        return value
      else throw (.circular index)
termination_by free.length
decreasing_by
  have := List.length_erase_of_mem _h
  have := List.length_pos_of_mem _h
  omega

/-- The value of a loadable constant. -/
def loadable (pool : Pool) (index : Nat) : Resolve Literal := pool.loadableWithin pool.dynamicSlots index

/-- A call site that a bootstrap method links. -/
structure CallSite where
  name : String
  descriptor : String
  bootstrap : Handle
  arguments : List Literal
deriving Repr

def callSite (pool : Pool) (index : Nat) : Resolve CallSite := do
  let (bootstrap, nameAndType) ← pool.expect index [.invokeDynamic] fun
    | .invokeDynamic bootstrap nameAndType => some (bootstrap, nameAndType)
    | _ => none
  let (name, descriptor) ← pool.nameAndType nameAndType
  let method ← pool.bootstrapAt bootstrap
  let handle ← pool.handle method.handle
  let arguments ← method.arguments.mapM pool.loadable
  return ⟨name, descriptor, handle, arguments⟩

end Pool

end Linkage

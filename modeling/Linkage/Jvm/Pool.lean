import Linkage.Jvm.Constant
import Linkage.Jvm.Literal

/-! The constant pool and the references into it. -/
namespace Linkage

/-- A bootstrap method: the slot of its handle and those of its arguments. -/
structure Bootstrap where
  handle : Nat
  arguments : List Nat
deriving Repr, DecidableEq

/-- The constants of a class by slot; slot 0 and the second slot of an eight-byte constant are empty. -/
structure Pool where
  slots : Array (Option Constant)
  bootstraps : Array Bootstrap := #[]
deriving Repr, DecidableEq

namespace Pool

/-- A count, which is one more than the number of slots that follow, and the constants in these. -/
def read : Scan PoolError Pool := do
  let count ← Scan.u2
  let slots ← Constant.readSlots 1 (count - 1)
  return ⟨if count = 0 then #[] else (none :: slots).toArray, #[]⟩

/-- What `select` takes from the constant in a slot, which is of one of the `expected` kinds. -/
def expect {α : Type} (pool : Pool) (index : Nat) (expected : List Tag) (select : Constant → Option α) :
    Except PoolFault α :=
  if index = 0 then .error (.outOfRange index)
  else
    match pool.slots[index]? with
    | none => .error (.outOfRange index)
    | some none => .error (.mistyped index 0 expected)
    | some (some constant) =>
      match select constant with
      | some a => .ok a
      | none => .error (.mistyped index constant.tag.code expected)

def utf8 (pool : Pool) (index : Nat) : Except PoolFault String :=
  pool.expect index [.utf8] fun
    | .utf8 text => some text
    | _ => none

def className (pool : Pool) (index : Nat) : Except PoolFault String := do
  let name ← pool.expect index [.type] fun
    | .type name => some name
    | _ => none
  pool.utf8 name

/-- The name of a class, empty for slot 0. -/
def optionalClassName (pool : Pool) (index : Nat) : Except PoolFault String :=
  if index = 0 then .ok "" else pool.className index

/-- A name and a descriptor. -/
def nameAndType (pool : Pool) (index : Nat) : Except PoolFault (String × String) := do
  let (name, descriptor) ← pool.expect index [.nameAndType] fun
    | .nameAndType name descriptor => some (name, descriptor)
    | _ => none
  return (← pool.utf8 name, ← pool.utf8 descriptor)

/-- A resolved member reference. -/
structure MemberRef where
  owner : String
  name : String
  descriptor : String
  isInterface : Bool
deriving Repr, DecidableEq

/-- A member reference of one of the given kinds. -/
def memberRef (pool : Pool) (index : Nat) (kinds : List MemberKind) : Except PoolFault MemberRef := do
  let (kind, owner, nameAndType) ← pool.expect index (kinds.map fun kind => (Constant.member kind 0 0).tag) fun
    | .member kind owner nameAndType => if kind ∈ kinds then some (kind, owner, nameAndType) else none
    | _ => none
  let owner ← pool.className owner
  let (name, descriptor) ← pool.nameAndType nameAndType
  return ⟨owner, name, descriptor, kind = .interfaceMethod⟩

def handle (pool : Pool) (index : Nat) : Except PoolFault Handle := do
  let (kind, reference) ← pool.expect index [.methodHandle] fun
    | .methodHandle kind reference => some (kind, reference)
    | _ => none
  let ref ← pool.memberRef reference [.field, .method, .interfaceMethod]
  return ⟨kind, ref.owner, ref.name, ref.descriptor, ref.isInterface⟩

end Pool

end Linkage

import Linkage.Bytes.Cursor
import Linkage.Text.ModifiedUtf8

/-! The constants of a class file as they are stored, and how they are read. -/
namespace Linkage

/-- The kind of a stored constant. -/
inductive Tag where
  | utf8 | integer | float | long | double | type | string | fieldRef | methodRef | interfaceMethodRef
  | nameAndType | methodHandle | methodType | dynamic | invokeDynamic | module | package
deriving Repr, DecidableEq

namespace Tag

/-- The byte that announces a constant of this kind. -/
def code : Tag → Nat
  | .utf8 => 1
  | .integer => 3
  | .float => 4
  | .long => 5
  | .double => 6
  | .type => 7
  | .string => 8
  | .fieldRef => 9
  | .methodRef => 10
  | .interfaceMethodRef => 11
  | .nameAndType => 12
  | .methodHandle => 15
  | .methodType => 16
  | .dynamic => 17
  | .invokeDynamic => 18
  | .module => 19
  | .package => 20

def all : List Tag :=
  [.utf8, .integer, .float, .long, .double, .type, .string, .fieldRef, .methodRef, .interfaceMethodRef,
    .nameAndType, .methodHandle, .methodType, .dynamic, .invokeDynamic, .module, .package]

def ofCode? (n : Nat) : Option Tag := all.find? (·.code == n)

end Tag

/-- The three kinds of member reference. -/
inductive MemberKind where
  | field | method | interfaceMethod
deriving Repr, DecidableEq

/-- A stored constant. Numbers that stand for other constants are slots of the pool. -/
inductive Constant where
  | utf8 (text : String)
  | integer (bits : UInt32)
  | float (bits : UInt32)
  | long (bits : UInt64)
  | double (bits : UInt64)
  | type (name : Nat)
  | string (text : Nat)
  | member (kind : MemberKind) (owner nameAndType : Nat)
  | nameAndType (name descriptor : Nat)
  | methodHandle (kind reference : Nat)
  | methodType (descriptor : Nat)
  | dynamic (bootstrap nameAndType : Nat)
  | invokeDynamic (bootstrap nameAndType : Nat)
  | module (name : Nat)
  | package (name : Nat)
deriving Repr, DecidableEq

namespace Constant

def tag : Constant → Tag
  | .utf8 _ => .utf8
  | .integer _ => .integer
  | .float _ => .float
  | .long _ => .long
  | .double _ => .double
  | .type _ => .type
  | .string _ => .string
  | .member .field _ _ => .fieldRef
  | .member .method _ _ => .methodRef
  | .member .interfaceMethod _ _ => .interfaceMethodRef
  | .nameAndType _ _ => .nameAndType
  | .methodHandle _ _ => .methodHandle
  | .methodType _ => .methodType
  | .dynamic _ _ => .dynamic
  | .invokeDynamic _ _ => .invokeDynamic
  | .module _ => .module
  | .package _ => .package

/-- Constants of eight bytes take two slots, the second of which stays empty. -/
def isWide : Constant → Bool
  | .long _ | .double _ => true
  | _ => false

end Constant

/-- What is wrong with a constant pool or with a reference into it. -/
inductive PoolFault where
  /-- The text of an entry does not decode. -/
  | text (entry : Nat) (fault : ModifiedUtf8.Fault)
  | unknownTag (entry code : Nat)
  | outOfRange (index : Nat)
  /-- A slot holds another kind of constant than expected; an empty slot has kind 0. -/
  | mistyped (index code : Nat) (expected : List Tag)
  /-- A dynamic constant is among its own arguments. -/
  | circular (index : Nat)
  | bootstrapRange (index : Nat)
deriving Repr, DecidableEq

namespace PoolFault

def detail : PoolFault → String
  | .text entry fault => s!"entry {entry}: {fault.message}"
  | .unknownTag entry code => s!"entry {entry}: unknown tag {code}"
  | .outOfRange index => s!"index {index} out of range"
  | .mistyped index code expected =>
    let codes := " ".intercalate (expected.map fun tag => toString tag.code)
    s!"index {index} has tag {code}, expected [{codes}]"
  | .circular index => s!"circular dynamic constant {index}"
  | .bootstrapRange index => s!"bootstrap method {index} out of range"

def message (fault : PoolFault) : String := "classfile: invalid constant pool: " ++ fault.detail

end PoolFault

/-- Why a constant pool cannot be read. -/
inductive PoolError where
  | truncated (truncation : Truncation)
  | invalid (fault : PoolFault)
deriving Repr, DecidableEq

instance : OfTruncation PoolError := ⟨.truncated⟩

namespace Constant

open Scan

/-- The constant that follows its tag, as the given entry. -/
def readBody (entry : Nat) : Tag → Scan PoolError Constant
  | .utf8 => do
    let raw ← bytes (← u2)
    match ModifiedUtf8.decode raw with
    | .ok text => return .utf8 text
    | .error fault => throw (.invalid (.text entry fault))
  | .integer => return .integer (UInt32.ofNat (← u4))
  | .float => return .float (UInt32.ofNat (← u4))
  | .long => return .long (← word)
  | .double => return .double (← word)
  | .type => return .type (← u2)
  | .string => return .string (← u2)
  | .fieldRef => return .member .field (← u2) (← u2)
  | .methodRef => return .member .method (← u2) (← u2)
  | .interfaceMethodRef => return .member .interfaceMethod (← u2) (← u2)
  | .nameAndType => return .nameAndType (← u2) (← u2)
  | .methodHandle => return .methodHandle (← u1) (← u2)
  | .methodType => return .methodType (← u2)
  | .dynamic => return .dynamic (← u2) (← u2)
  | .invokeDynamic => return .invokeDynamic (← u2) (← u2)
  | .module => return .module (← u2)
  | .package => return .package (← u2)
where
  word : Scan PoolError UInt64 := do
    let high ← u4
    let low ← u4
    return UInt64.ofNat (high <<< 32 + low)

/-- A tag and its constant. -/
def read (entry : Nat) : Scan PoolError Constant := do
  let code ← u1
  match Tag.ofCode? code with
  | some tag => readBody entry tag
  | none => throw (.invalid (.unknownTag entry code))

/-- The constants of `count` slots from `entry` on. An eight-byte constant in the last slot has no second one. -/
def readSlots : Nat → Nat → Scan PoolError (List (Option Constant))
  | _, 0 => return []
  | entry, count + 1 => do
    let constant ← read entry
    if constant.isWide then
      match count with
      | 0 => return [some constant]
      | count + 1 => return some constant :: none :: (← readSlots (entry + 2) count)
    else
      return some constant :: (← readSlots (entry + 1) count)

end Constant

end Linkage

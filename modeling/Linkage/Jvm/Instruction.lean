import Linkage.Bytes.Cursor
import Linkage.Jvm.Opcode

/-!
Instructions and how they are decoded. Short and wide forms are folded into one: the opcode of an instruction is the
one of its general form, its branch targets are offsets in the code.
-/
namespace Linkage

/-- The operands of an instruction; indexes without a name are slots of the constant pool. -/
inductive Operand where
  | none
  | number (value : Int)
  | localVar (index : Nat)
  | type (index : Nat)
  | field (index : Nat)
  | method (index : Nat)
  | invokeDynamic (index : Nat)
  | jump (target : Int)
  | constant (index : Nat)
  | increment (index : Nat) (amount : Int)
  | tableSwitch (low high otherwise : Int) (targets : List Int)
  | lookupSwitch (otherwise : Int) (cases : List (Int × Int))
  | multiArray (index dimensions : Nat)
deriving Repr, DecidableEq

structure Instruction where
  offset : Nat
  opcode : Opcode
  operand : Operand
deriving Repr, DecidableEq

namespace Instruction

/-- Every offset that the instruction may go on at besides the next one. -/
def targets (i : Instruction) : List Int :=
  match i.operand with
  | .jump target => [target]
  | .tableSwitch _ _ otherwise targets => otherwise :: targets
  | .lookupSwitch otherwise cases => otherwise :: cases.map (·.2)
  | _ => []

end Instruction

/-- Why code does not decode. -/
inductive CodeError where
  | unknown (op : Opcode) (offset : Nat)
  /-- An opcode that has no wide form. -/
  | notWide (op : Opcode) (offset : Nat)
  /-- The code ends inside the operands of the instruction at `offset`. -/
  | operands (op : Opcode) (offset : Nat) (truncation : Truncation)
  /-- The code ends where an opcode is due. -/
  | truncated (truncation : Truncation)
  | switchBounds (offset : Nat) (low high : Int)
  | switchCount (offset : Nat)
deriving Repr, DecidableEq

instance : OfTruncation CodeError := ⟨.truncated⟩

namespace CodeError

def message : CodeError → String
  | .unknown op offset => s!"classfile: unknown opcode: {op} at {offset}"
  | .notWide op offset => s!"classfile: unknown opcode: wide {op} at {offset}"
  | .operands op offset truncation =>
    s!"instruction {Opcode.mnemonic op} at {offset}: {truncation.message}"
  | .truncated truncation => truncation.message
  | .switchBounds offset low high => s!"tableswitch at {offset}: high {high} < low {low}"
  | .switchCount offset => s!"lookupswitch at {offset}: negative pair count"

/-- Names the instruction whose operands are cut off. -/
def inOperands (op : Opcode) (offset : Nat) : CodeError → CodeError
  | .truncated truncation => .operands op offset truncation
  | e => e

end CodeError

namespace Instruction

open Scan

/-- A signed number in `width` bytes. -/
def signedNumber (width : Nat) : Scan CodeError Int := do
  return signed (8 * width) (← ofRead (Cursor.number width))

/-- An offset relative to `offset`, in `width` bytes. -/
def target (offset width : Nat) : Scan CodeError Int := do
  return offset + (← signedNumber width)

/-- The bytes that align the operands of a switch to a multiple of four. -/
def padding (offset : Nat) : Nat := (4 - (offset + 1) % 4) % 4

/-- The general form of the opcode `op` at `offset` and its operands. -/
def operands (op : Opcode) (offset : Nat) : Opcode.Format → Scan CodeError (Opcode × Operand)
  | .plain => return (op, .none)
  | .signed width => return (op, .number (← signedNumber width))
  | .arrayType => return (op, .number (← u1))
  | .constant width => return (Opcode.ldc, .constant (← ofRead (Cursor.number width)))
  | .localVar => return (op, .localVar (← u1))
  | .implied op index => return (op, .localVar index)
  | .increment => do
    let index ← u1
    return (op, .increment index (← signedNumber 1))
  | .branch op width => return (op, .jump (← target offset width))
  | .tableSwitch => do
    let _ ← bytes (padding offset)
    let otherwise ← target offset 4
    let low ← signedNumber 4
    let high ← signedNumber 4
    if high < low then throw (.switchBounds offset low high)
    let targets ← times (high - low + 1).toNat fun _ => target offset 4
    return (op, .tableSwitch low high otherwise targets)
  | .lookupSwitch => do
    let _ ← bytes (padding offset)
    let otherwise ← target offset 4
    let pairs ← signedNumber 4
    if pairs < 0 then throw (.switchCount offset)
    let cases ← times pairs.toNat fun _ => do
      let key ← signedNumber 4
      return (key, ← target offset 4)
    return (op, .lookupSwitch otherwise cases)
  | .field => return (op, .field (← u2))
  | .method ignored => do
    let index ← u2
    let _ ← bytes ignored
    return (op, .method index)
  | .invokeDynamic => do
    let index ← u2
    let _ ← bytes 2
    return (op, .invokeDynamic index)
  | .type => return (op, .type (← u2))
  | .multiArray => do
    let index ← u2
    return (op, .multiArray index (← u1))

/-- The operands of the opcode `op` after a `wide` at `offset`. -/
def wideOperands (op : Opcode) (offset : Nat) : Scan CodeError (Opcode × Operand) :=
  if op = Opcode.iinc then do
    let index ← u2
    return (op, .increment index (← signedNumber 2))
  else if Opcode.takesVariable op then
    return (op, .localVar (← u2))
  else throw (.notWide op offset)

/-- The instruction at the cursor, which stands at the given offset. -/
def readAt (offset : Nat) : Scan CodeError Instruction := do
  let op ← u1
  if op = Opcode.wide then
    let inner ← u1
    let (general, operand) ← mapError (CodeError.inOperands op offset) (wideOperands inner offset)
    return ⟨offset, general, operand⟩
  else
    match Opcode.format op with
    | none => throw (.unknown op offset)
    | some format =>
      let (general, operand) ← mapError (CodeError.inOperands op offset) (operands op offset format)
      return ⟨offset, general, operand⟩

/-- The instruction at the cursor. -/
def read : Scan CodeError Instruction := do readAt (← get).pos

/-- At most `fuel` instructions from the cursor on. -/
def readAll : Nat → Cursor → Except CodeError (List Instruction)
  | 0, _ => .ok []
  | fuel + 1, c =>
    if c.rest.isEmpty then .ok []
    else do
      let (instruction, c) ← read c
      return instruction :: (← readAll fuel c)

/-- The instructions of `code`: each takes at least one byte. -/
def decode (code : Bytes) : Except CodeError (List Instruction) :=
  readAll code.length (Cursor.ofBytes code)

end Instruction

end Linkage

import Std.Data.TreeSet
import Linkage.Jvm.Event
import Linkage.Jvm.Instruction
import Linkage.Jvm.Resolve

/-!
The events of a method body. Code that does not decode yields none; otherwise they go on up to the first instruction
whose operand does not resolve.
-/
namespace Linkage

/-- Why the events of a body break off. -/
inductive BodyFault where
  | code (error : CodeError)
  /-- The operand of the instruction at `offset` does not resolve. -/
  | operand (op : Opcode) (offset : Nat) (fault : PoolFault)
deriving Repr, DecidableEq

namespace BodyFault

def message : BodyFault → String
  | .code error => error.message
  | .operand op offset fault => s!"{Opcode.mnemonic op} at {offset}: {fault.message}"

end BodyFault

/-- The events of a body between `start` and `finish`, and why they break off if they do. -/
structure Trace where
  events : List CodeEvent
  fault : Option BodyFault
deriving Repr

namespace Instruction

/-- The event of an instruction. -/
def event (pool : Pool) (i : Instruction) : Resolve CodeEvent := do
  match i.operand with
  | .none => return .insn i.opcode
  | .number value => return .intInsn i.opcode value
  | .localVar index => return .varInsn i.opcode index
  | .increment index amount => return .increment index amount
  | .type index => return .typeInsn i.opcode (← pool.className index)
  | .field index =>
    let ref ← pool.memberRef index [.field]
    return .fieldInsn i.opcode ref.owner ref.name ref.descriptor
  | .method index =>
    let ref ← pool.memberRef index [.method, .interfaceMethod]
    return .methodInsn i.opcode ref.owner ref.name ref.descriptor ref.isInterface
  | .invokeDynamic index =>
    let site ← pool.callSite index
    return .invokeDynamic site.name site.descriptor (some site.bootstrap) site.arguments
  | .constant index => return .ldc (← pool.loadable index)
  | .jump target => return .jump i.opcode target
  | .tableSwitch low high otherwise targets => return .tableSwitch low high otherwise targets
  | .lookupSwitch otherwise cases => return .lookupSwitch otherwise (cases.map (·.1)) (cases.map (·.2))
  | .multiArray index dimensions => return .multiArray (← pool.className index) dimensions

end Instruction

namespace Code

/-- The offsets that handlers, lines and branches refer to. -/
def references (code : Code) (instructions : List Instruction) : List Label :=
  code.handlers.flatMap (fun h => [(h.start : Label), h.stop, h.handler]) ++
    code.lines.map (fun line => (line.start : Label)) ++
    instructions.flatMap (·.targets)

/-- The label at `offset`, if there is one, and the lines that start there. -/
def labelEvents (code : Code) (labels : Std.TreeSet Label) (offset : Nat) : List CodeEvent :=
  if labels.contains offset then
    .label offset :: (code.lines.filter (·.start == offset)).map fun line => .lineNumber line.line offset
  else []

/-- The events of the instructions, each after its label and lines. -/
def instructionEvents (pool : Pool) (code : Code) (labels : Std.TreeSet Label) :
    List Instruction → StateM Memo Trace
  | [] => return ⟨[], none⟩
  | i :: rest => do
    let opening := code.labelEvents labels i.offset
    match ← (i.event pool).run with
    | .error fault => return ⟨opening, some (.operand i.opcode i.offset fault)⟩
    | .ok event =>
      let following ← instructionEvents pool code labels rest
      return { following with events := opening ++ event :: following.events }

/-- The labels at or after the end of the code, and the sizes of stack and frame. -/
def closingEvents (code : Code) (labels : Std.TreeSet Label) : List CodeEvent :=
  (labels.toList.filter fun label => (code.bytes.length : Int) ≤ label).map .label ++
    [.maxs code.maxStack code.maxLocals]

/-- The events of a body without its `finish`. -/
def trace (pool : Pool) (code : Code) : StateM Memo Trace := do
  match Instruction.decode code.bytes with
  | .error error => return ⟨[], some (.code error)⟩
  | .ok instructions =>
    let labels := Std.TreeSet.ofList (code.references instructions)
    let opening := code.handlers.map fun h => CodeEvent.tryCatch h.start h.stop h.handler h.type
    let body ← instructionEvents pool code labels instructions
    let closing := if body.fault.isNone then code.closingEvents labels else []
    return { body with events := .start :: (opening ++ body.events ++ closing) }

end Code

end Linkage

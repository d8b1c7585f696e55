/-! The instruction set: mnemonics and operand formats of the opcodes 0 to 201. -/
namespace Linkage

/-- An opcode; those of the instruction set are below 202. -/
abbrev Opcode := Nat

namespace Opcode

def mnemonics : Array String :=
  #["nop", "aconst_null", "iconst_m1", "iconst_0", "iconst_1", "iconst_2", "iconst_3", "iconst_4", "iconst_5",
    "lconst_0", "lconst_1", "fconst_0", "fconst_1", "fconst_2", "dconst_0", "dconst_1", "bipush", "sipush",
    "ldc", "ldc_w", "ldc2_w", "iload", "lload", "fload", "dload", "aload", "iload_0", "iload_1", "iload_2",
    "iload_3", "lload_0", "lload_1", "lload_2", "lload_3", "fload_0", "fload_1", "fload_2", "fload_3",
    "dload_0", "dload_1", "dload_2", "dload_3", "aload_0", "aload_1", "aload_2", "aload_3", "iaload", "laload",
    "faload", "daload", "aaload", "baload", "caload", "saload", "istore", "lstore", "fstore", "dstore",
    "astore", "istore_0", "istore_1", "istore_2", "istore_3", "lstore_0", "lstore_1", "lstore_2", "lstore_3",
    "fstore_0", "fstore_1", "fstore_2", "fstore_3", "dstore_0", "dstore_1", "dstore_2", "dstore_3", "astore_0",
    "astore_1", "astore_2", "astore_3", "iastore", "lastore", "fastore", "dastore", "aastore", "bastore",
    "castore", "sastore", "pop", "pop2", "dup", "dup_x1", "dup_x2", "dup2", "dup2_x1", "dup2_x2", "swap",
    "iadd", "ladd", "fadd", "dadd", "isub", "lsub", "fsub", "dsub", "imul", "lmul", "fmul", "dmul", "idiv",
    "ldiv", "fdiv", "ddiv", "irem", "lrem", "frem", "drem", "ineg", "lneg", "fneg", "dneg", "ishl", "lshl",
    "ishr", "lshr", "iushr", "lushr", "iand", "land", "ior", "lor", "ixor", "lxor", "iinc", "i2l", "i2f",
    "i2d", "l2i", "l2f", "l2d", "f2i", "f2l", "f2d", "d2i", "d2l", "d2f", "i2b", "i2c", "i2s", "lcmp", "fcmpl",
    "fcmpg", "dcmpl", "dcmpg", "ifeq", "ifne", "iflt", "ifge", "ifgt", "ifle", "if_icmpeq", "if_icmpne",
    "if_icmplt", "if_icmpge", "if_icmpgt", "if_icmple", "if_acmpeq", "if_acmpne", "goto", "jsr", "ret",
    "tableswitch", "lookupswitch", "ireturn", "lreturn", "freturn", "dreturn", "areturn", "return",
    "getstatic", "putstatic", "getfield", "putfield", "invokevirtual", "invokespecial", "invokestatic",
    "invokeinterface", "invokedynamic", "new", "newarray", "anewarray", "arraylength", "athrow", "checkcast",
    "instanceof", "monitorenter", "monitorexit", "wide", "multianewarray", "ifnull", "ifnonnull", "goto_w",
    "jsr_w"]

/-- The mnemonic of an opcode, empty outside the instruction set. -/
def mnemonic (op : Int) : String :=
  if op < 0 then "" else mnemonics.getD op.toNat ""

/-- How the operands of an instruction are laid out and what they mean. -/
inductive Format where
  /-- No operands. -/
  | plain
  /-- A signed number in the given number of bytes. -/
  | signed (width : Nat)
  /-- An array type in one byte. -/
  | arrayType
  /-- The index of a loadable constant in the given number of bytes. -/
  | constant (width : Nat)
  /-- The index of a local variable in one byte. -/
  | localVar
  /-- A local variable that the opcode itself names. -/
  | implied (op : Opcode) (index : Nat)
  /-- A local variable and a signed increment, one byte each. -/
  | increment
  /-- A signed displacement in the given number of bytes, for the given plain branch. -/
  | branch (op : Opcode) (width : Nat)
  | tableSwitch
  | lookupSwitch
  /-- The index of a field reference. -/
  | field
  /-- The index of a method reference, then the given number of ignored bytes. -/
  | method (ignored : Nat)
  /-- The index of a call site, then two ignored bytes. -/
  | invokeDynamic
  /-- The index of a class. -/
  | type
  /-- The index of a class, then a number of dimensions in one byte. -/
  | multiArray
deriving Repr, DecidableEq

def ldc : Opcode := 18
def iload : Opcode := 21
def istore : Opcode := 54
def iinc : Opcode := 132
def goto : Opcode := 167
def ret : Opcode := 169

/-- Widens the operands of the instruction that follows. -/
def wide : Opcode := 196

/-- Loads, stores and `ret` with an explicit local variable. -/
def takesVariable (op : Opcode) : Bool :=
  (iload ≤ op && op ≤ 25) || (istore ≤ op && op ≤ 58) || op == ret

/-- The format of an opcode; none for `wide` and outside the instruction set. -/
def format (op : Opcode) : Option Format :=
  if op ≤ 15 then some .plain
  else if op = 16 then some (.signed 1)
  else if op = 17 then some (.signed 2)
  else if op = ldc then some (.constant 1)
  else if op = 19 ∨ op = 20 then some (.constant 2)
  else if takesVariable op then some .localVar
  else if op ≤ 45 then some (.implied (iload + (op - 26) / 4) ((op - 26) % 4))
  else if op ≤ 53 then some .plain
  else if op ≤ 78 then some (.implied (istore + (op - 59) / 4) ((op - 59) % 4))
  else if op ≤ 131 then some .plain
  else if op = iinc then some .increment
  else if op ≤ 152 then some .plain
  else if op ≤ 168 then some (.branch op 2)
  else if op = 170 then some .tableSwitch
  else if op = 171 then some .lookupSwitch
  else if op ≤ 177 then some .plain
  else if op ≤ 181 then some .field
  else if op ≤ 184 then some (.method 0)
  else if op = 185 then some (.method 2)
  else if op = 186 then some .invokeDynamic
  else if op = 187 ∨ op = 189 ∨ op = 192 ∨ op = 193 then some .type
  else if op = 188 then some .arrayType
  else if op ≤ 195 then some .plain
  else if op = wide then none
  else if op = 197 then some .multiArray
  else if op ≤ 199 then some (.branch op 2)
  else if op ≤ 201 then some (.branch (goto + (op - 200)) 4)
  else none

end Opcode

end Linkage
